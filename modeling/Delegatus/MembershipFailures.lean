import Delegatus.MembershipConvergence

/-!
# Launches that fail

`failUnstartedLaunchMembership` fails the rows that a launch added before it ran.  A task that such a
row moved from Inbox goes back when no row of it is live any more.  Only the first of several launches
moved the task, and a row remembers the status before its own: the task goes back to Inbox exactly when
the launch of its first live row is the last to fail (`failed_launches_restore_inbox`).  The rows
themselves end the same in every order.
-/

namespace Delegatus.TaskMembership

open LinkStamps (Instant)
open LinkedBoards (AssignmentState LocalTask MembershipIdentity OriginKind TaskAssignment TaskStatus
  assignmentHoldsIdentity nonEmpty truthy upsertLinked withTaskCompletion)

/-- A fresh launch whose receipt failed before it wrote a transcript. -/
structure FailedLaunchIdentity where
  launchId : String
  conversationId : Option String
  clientAttemptId : Option String
  error : Option String

structure FailedLaunchTaskMove where
  taskId : String
  from_ : TaskStatus
  to_ : TaskStatus

def LIVE_ASSIGNMENT_STATES : List AssignmentState := [.delivered, .spawning, .handoff, .linked]

/-- The row is a linked one of this launch and, where both name one, of its conversation. -/
def FailedLaunchIdentity.owns (launch : FailedLaunchIdentity) (assignment : TaskAssignment) : Bool :=
  decide (assignment.state = .linked ∧ assignment.launchId = some launch.launchId) &&
    !(truthy launch.conversationId && truthy assignment.conversationId &&
      decide (assignment.conversationId ≠ launch.conversationId))

/-- `launch.error?.trim() || "launch failed"`. -/
def FailedLaunchIdentity.message (launch : FailedLaunchIdentity) : String :=
  (nonEmpty (launch.error.map JsStrings.trim)).getD "launch failed"

def failRow (launch : FailedLaunchIdentity) (now : Instant) (assignment : TaskAssignment) : TaskAssignment :=
  if launch.owns assignment then
    { assignment with state := .failed, error := some launch.message, at_ := now }
  else assignment

/-- The task is the one that the launch made for itself. -/
def FailedLaunchIdentity.made (launch : FailedLaunchIdentity) (task : LocalTask) : Bool :=
  task.rest.origin.any fun origin => decide (origin.kind = .launch ∧
    (origin.key = launch.clientAttemptId.getD launch.launchId ∨ origin.key = launch.launchId))

/-- One task, and its move; `none` when no row of it is the launch's. -/
def failTask (launch : FailedLaunchIdentity) (now : Instant) (task : LocalTask) :
    Option (LocalTask × FailedLaunchTaskMove) :=
  if launch.made task then none
  else if !task.rest.assignments.any launch.owns then none
  else
    let restoreInbox := task.rest.assignments.any fun assignment => launch.owns assignment &&
      decide (assignment.statusBeforeLink = none ∨ assignment.statusBeforeLink = some .inbox)
    let assignments := task.rest.assignments.map (failRow launch now)
    let live := assignments.any fun assignment => decide (assignment.state ∈ LIVE_ASSIGNMENT_STATES)
    let status := if task.status = .assigned ∧ live = false ∧ restoreInbox = true then .inbox else task.status
    some ({ task with status := status, rest := { task.rest with assignments := assignments }, updatedAt := now },
      ⟨task.id, task.status, status⟩)

structure FailedLaunchResult where
  tasks : List LocalTask
  changed : Bool
  moves : List FailedLaunchTaskMove

def failUnstartedLaunchMembership (existing : List LocalTask) (launch : FailedLaunchIdentity) (now : Instant) :
    FailedLaunchResult :=
  { tasks := existing.map fun task => ((failTask launch now task).map Prod.fst).getD task
    changed := existing.any fun task => (failTask launch now task).isSome
    moves := existing.filterMap fun task => (failTask launch now task).map Prod.snd }

/-! ### Launches that are linked and fail -/

/-- A launch: the admission that links it, and its failure. -/
structure Launch where
  input : MembershipInput
  deps : MembershipDeps
  failure : FailedLaunchIdentity
  failedAt : Instant
  named : failure.launchId ≠ ""
  launchId : input.identity.launchId = some failure.launchId
  /-- It has one conversation. -/
  conversation : truthy input.identity.conversationId = true → truthy failure.conversationId = true →
    input.identity.conversationId = failure.conversationId

/-- The task list after the launches were linked. -/
def linkAll (canonicalProject : String → String) (tasks : List LocalTask) (launches : List Launch) : List LocalTask :=
  launches.foldl (fun tasks launch => afterCall canonicalProject tasks (launch.input, launch.deps)) tasks

/-- The task list after the launches failed in this order. -/
def failAll (tasks : List LocalTask) (order : List Launch) : List LocalTask :=
  order.foldl (fun tasks launch => (failUnstartedLaunchMembership tasks launch.failure launch.failedAt).tasks) tasks

/-- The first linked row of a task. -/
def firstLinked (task : LocalTask) : Option TaskAssignment :=
  task.rest.assignments.find? fun assignment => assignment.state = .linked

/-- The last launch of an order that owns a row of the task. -/
def lastOwner (task : LocalTask) (order : List Launch) : Option Launch :=
  order.reverse.find? fun launch => task.rest.assignments.any launch.failure.owns

/-- The launch of the first linked row is the last of the owners to fail. -/
def FirstFailsLast (task : LocalTask) (order : List Launch) : Prop :=
  (lastOwner task order).map (fun launch => some launch.failure.launchId) =
    (firstLinked task).map TaskAssignment.launchId

/-! ### What a link makes of a task -/

/-- A commit of the identity, with the status that it leaves. -/
structure Linked (identity : MembershipIdentity) (now : Instant) (task task' : LocalTask) : Prop where
  rows : task'.rest.assignments = (upsertLinked task identity now).1.rest.assignments
  status : task'.status = (upsertLinked task identity now).1.status
  origin : task'.rest.origin = task.rest.origin

theorem commitMember_linked {identity : MembershipIdentity} {now : Instant} {tasks : List LocalTask}
    {changed : Bool} {index : Nat} {task : LocalTask} {out : List LocalTask × Bool}
    (htask : tasks[index]? = some task) (h : commitMember identity now (tasks, changed) index = .ok out) :
    ∃ task', Linked identity now task task' ∧ out.1 = tasks.set index task' := by
  obtain ⟨-, -, horigin⟩ := upsertLinked_frame task identity now
  unfold commitMember at h
  simp only [htask] at h
  split at h
  · split at h
    · rename_i rest hcompleted
      obtain ⟨hassignments, hrest⟩ := withTaskCompletion_frame hcompleted
      obtain rfl := Except.ok.inj h
      exact ⟨{ (upsertLinked task identity now).1 with rest := rest },
        ⟨hassignments, rfl, hrest.trans horigin⟩, rfl⟩
    · cases h
  · rename_i hunchanged
    obtain rfl := Except.ok.inj h
    have hsame := upsertLinked_of_unchanged (Bool.eq_false_iff.mpr hunchanged)
    refine ⟨task, ⟨by rw [hsame], by rw [hsame], rfl⟩, ?_⟩
    obtain ⟨hlt, rfl⟩ := List.getElem?_eq_some_iff.mp htask
    exact (List.set_getElem_self hlt).symm

/-- A call leaves a task as it is, or links the identity there. -/
def LinksAt (identity : MembershipIdentity) (now : Instant) (tasks tasks' : List LocalTask) : Prop :=
  ∀ (i : Nat) (task : LocalTask), tasks[i]? = some task →
    ∃ task', tasks'[i]? = some task' ∧ (task' = task ∨ Linked identity now task task')

theorem joinTasks_links {existing : List LocalTask} {input : MembershipInput} {now : Instant}
    {indexes : List Nat} {taskIds : List String} {result : MembershipResult} (hnodup : indexes.Nodup)
    (h : joinTasks existing input now indexes taskIds = .ok result) : LinksAt input.identity now existing result.tasks := by
  unfold joinTasks at h
  split at h
  · cases h
  · obtain ⟨state, hrun, rfl⟩ := Refusals.map_eq_ok.mp h
    have hchanged := run_commitMember_changes commitMember_linked hnodup hrun
    intro i task htask
    by_cases hi : i ∈ indexes
    · obtain ⟨task', htask', hlinked⟩ := hchanged.changed i task hi htask
      exact ⟨task', htask', Or.inr hlinked⟩
    · exact ⟨task, (hchanged.others i hi).trans htask, Or.inl rfl⟩

theorem ensureUntargeted_links {existing : List LocalTask} {input : MembershipInput} {deps : MembershipDeps}
    {result : MembershipResult} (h : ensureUntargeted existing input deps = .ok result) :
    LinksAt input.identity deps.now existing result.tasks := by
  cases hresolved : resolved existing input with
  | some indexes =>
    obtain ⟨-, hjoined⟩ := (ensureUntargeted_of_resolved hresolved).mp h
    exact joinTasks_links (resolved_some.mp hresolved).nodup hjoined
  | none =>
    obtain ⟨-, rfl⟩ := (ensureUntargeted_of_unresolved hresolved).mp h
    intro i task htask
    refine ⟨task, ?_, Or.inl rfl⟩
    rwa [List.getElem?_append_left (List.getElem?_eq_some_iff.mp htask).1]

theorem joinTargets_links {canonicalProject : String → String} {existing : List LocalTask}
    {input : MembershipInput} {deps : MembershipDeps} {result : MembershipResult}
    (h : joinTargets canonicalProject existing input deps = .ok result) :
    LinksAt input.identity deps.now existing result.tasks := by
  by_cases hmissing : Missing existing input
  · cases hfallback : input.fallbackOrigin with
    | none => exact absurd h (joinTargets_missing_ne_ok hmissing hfallback)
    | some origin =>
      rw [joinTargets_missing hmissing hfallback] at h
      exact @ensureUntargeted_links _ (input.fallingBack origin) deps _ h
  · exact joinTasks_links (nodup_targetIndexes existing input) ((joinTargets_present hmissing).mp h).2

theorem ensureTaskMembership_links {canonicalProject : String → String} {existing : List LocalTask}
    {input : MembershipInput} {deps : MembershipDeps} {result : MembershipResult}
    (h : ensureTaskMembership canonicalProject existing input deps = .ok result) :
    LinksAt input.identity deps.now existing result.tasks := by
  by_cases htargets : input.explicitTaskIds = []
  · rw [ensureTaskMembership_untargeted canonicalProject htargets] at h
    exact ensureUntargeted_links h
  · by_cases hdiverted : input.fallbackOrigin.isSome = true ∧ Diverted existing input
    · obtain ⟨hfallback, hdiverted⟩ := hdiverted
      obtain ⟨origin, hfallback⟩ := Option.isSome_iff_exists.mp hfallback
      exact @ensureUntargeted_links _ (input.fallingBack origin) deps _
        ((ensureTaskMembership_diverted htargets hfallback hdiverted).mp h).2
    · have hundiverted : input.fallbackOrigin.isSome = true → ¬Diverted existing input :=
        fun hfallback hdiverted' => hdiverted ⟨hfallback, hdiverted'⟩
      obtain ⟨-, htargeted⟩ := (ensureTaskMembership_undiverted htargets hundiverted).mp h
      exact joinTargets_links (ensureTargeted_ok.mp htargeted).2

theorem afterCall_links (canonicalProject : String → String) (tasks : List LocalTask)
    (call : MembershipInput × MembershipDeps) :
    LinksAt call.1.identity call.2.now tasks (afterCall canonicalProject tasks call) := by
  unfold afterCall
  split
  · next result hcall => exact ensureTaskMembership_links hcall
  · exact fun i task htask => ⟨task, htask, Or.inl rfl⟩

/-! ### The linked rows -/

/-- What the failure of a launch reads of a linked row. -/
structure Mark where
  statusBeforeLink : Option TaskStatus
  launchId : Option String
  conversationId : Option String

def markOf? (row : TaskAssignment) : Option Mark :=
  if row.state = .linked then some ⟨row.statusBeforeLink, row.launchId, row.conversationId⟩ else none

def liveMarks (task : LocalTask) : List Mark := task.rest.assignments.filterMap markOf?

/-- The mark of the row that a launch adds to a task of status `before`. -/
def Launch.mark (before : TaskStatus) (launch : Launch) : Mark :=
  ⟨some before, some launch.failure.launchId, nonEmpty launch.input.identity.conversationId⟩

/-- The marks of launches that were linked one after the other. -/
def marksOf : List Launch → List Mark
  | [] => []
  | first :: rest => first.mark .inbox :: rest.map (Launch.mark .assigned)

/-- The task has rows of these launches, in this order, and no other live row. -/
structure Holds (owners : List Launch) (task : LocalTask) : Prop where
  states : ∀ row ∈ task.rest.assignments, row.state = .failed ∨ row.state = .linked
  marks : liveMarks task = marksOf owners
  status : task.status = if owners = [] then .inbox else .assigned

theorem marksOf_concat (owners : List Launch) (launch : Launch) :
    marksOf (owners ++ [launch]) = marksOf owners ++ [launch.mark (if owners = [] then .inbox else .assigned)] := by
  cases owners with
  | nil => rfl
  | cons first rest => simp [marksOf]

theorem mem_marksOf {owners : List Launch} {mark : Mark} (h : mark ∈ marksOf owners) :
    ∃ launch ∈ owners, ∃ before, mark = launch.mark before := by
  cases owners with
  | nil => exact nomatch h
  | cons first rest =>
    rcases List.mem_cons.mp h with rfl | hmem
    · exact ⟨first, List.mem_cons_self, .inbox, rfl⟩
    · obtain ⟨launch, hlaunch, rfl⟩ := List.mem_map.mp hmem
      exact ⟨launch, List.mem_cons_of_mem _ hlaunch, .assigned, rfl⟩

/-- A row of another launch that holds the identity of this one keeps what its own failure reads. -/
theorem markOf?_filledRow {launch : Launch} {row : TaskAssignment}
    (hholder : assignmentHoldsIdentity row launch.input.identity = true)
    (hother : row.state = .linked → ∃ id, row.launchId = some id ∧ id ≠ "" ∧ id ≠ launch.failure.launchId) :
    markOf? (filledRow launch.input.identity row) = markOf? row := by
  unfold markOf?
  rw [filledRow_state]
  split
  · next hlinked =>
    obtain ⟨id, hid, hnonempty, hne⟩ := hother hlinked
    have htruthy : truthy row.launchId = true := by simp [hid, truthy, hnonempty]
    have hgiven : truthy launch.input.identity.launchId = true := by
      simp [launch.launchId, truthy, launch.named]
    have hconversation : truthy row.conversationId = true := by
      by_contra hnone
      rw [assignmentHoldsIdentity, if_neg (by simp [hnone]), if_pos (by simp [hgiven, htruthy]), hid,
        launch.launchId] at hholder
      exact hne (by simpa using hholder)
    simp only [filledRow, fill_of_truthy _ htruthy, fill_of_truthy _ hconversation]
  · rfl

/-- An upsert fills a row that holds the identity, or adds a row and moves the task from Inbox. -/
theorem upsertLinked_cases (task : LocalTask) (identity : MembershipIdentity) (now : Instant) :
    (∃ pre row post, task.rest.assignments = pre ++ row :: post ∧ assignmentHoldsIdentity row identity = true ∧
      (upsertLinked task identity now).1.rest.assignments = pre ++ filledRow identity row :: post ∧
      (upsertLinked task identity now).1.status = task.status) ∨
    ((upsertLinked task identity now).1.rest.assignments =
        task.rest.assignments ++ [linkedRow task identity now] ∧
      (upsertLinked task identity now).1.status = if task.status = .inbox then .assigned else task.status) := by
  cases hfound : task.rest.assignments.findIdx?
      (fun assignment => assignmentHoldsIdentity assignment identity) with
  | none =>
    right
    unfold upsertLinked
    rw [hfound]
    exact ⟨rfl, rfl⟩
  | some index =>
    obtain ⟨pre, row, post, hsplit, hlength, hholder, -⟩ := findIdx?_split hfound
    have hmodified : task.rest.assignments.modify index (filledRow identity) =
        pre ++ filledRow identity row :: post := by
      rw [hsplit, ← hlength, modify_split]
    refine Or.inl ⟨pre, row, post, hsplit, hholder, ?_⟩
    rw [← hmodified]
    unfold upsertLinked
    rw [hfound]
    dsimp only
    split
    · next hsame => exact ⟨hsame.symm, rfl⟩
    · exact ⟨rfl, rfl⟩

/-- A link keeps the rows of the launches before it, and may add its own at the end. -/
theorem Holds.link {owners : List Launch} {task task' : LocalTask} (h : Holds owners task) {launch : Launch}
    (hfresh : ∀ owner ∈ owners, owner.failure.launchId ≠ launch.failure.launchId) {now : Instant}
    (hlinked : Linked launch.input.identity now task task') :
    Holds owners task' ∨ Holds (owners ++ [launch]) task' := by
  have howner : ∀ row ∈ task.rest.assignments, row.state = .linked →
      ∃ id, row.launchId = some id ∧ id ≠ "" ∧ id ≠ launch.failure.launchId := by
    intro row hrow hstate
    have hmark : (⟨row.statusBeforeLink, row.launchId, row.conversationId⟩ : Mark) ∈ marksOf owners := by
      rw [← h.marks]
      exact List.mem_filterMap.mpr ⟨row, hrow, if_pos hstate⟩
    obtain ⟨owner, hmem, before, heq⟩ := mem_marksOf hmark
    exact ⟨owner.failure.launchId, congrArg Mark.launchId heq, owner.named, hfresh owner hmem⟩
  have hmarks := h.marks
  unfold liveMarks at hmarks
  rcases upsertLinked_cases task launch.input.identity now with
    ⟨pre, row, post, hsplit, hholder, hrows, hstatus⟩ | ⟨hrows, hstatus⟩
  · left
    have hrow : row ∈ task.rest.assignments := by simp [hsplit]
    refine ⟨?_, ?_, ?_⟩
    · rw [hlinked.rows, hrows]
      intro other hother
      rcases List.mem_append.mp hother with hmem | hmem
      · exact h.states other (by simp [hsplit, hmem])
      · rcases List.mem_cons.mp hmem with rfl | hmem
        · exact h.states row hrow
        · exact h.states other (by simp [hsplit, hmem])
    · rw [← hmarks, liveMarks, hlinked.rows, hrows, hsplit, List.filterMap_append, List.filterMap_append,
        List.filterMap_cons, List.filterMap_cons, markOf?_filledRow hholder (howner row hrow)]
    · rw [hlinked.status, hstatus]
      exact h.status
  · right
    have hlaunch : truthy launch.input.identity.launchId = true := by
      simp [launch.launchId, truthy, launch.named]
    refine ⟨?_, ?_, ?_⟩
    · rw [hlinked.rows, hrows]
      intro other hother
      rcases List.mem_append.mp hother with hmem | hmem
      · exact h.states other hmem
      · rw [List.mem_singleton.mp hmem]
        exact Or.inr rfl
    · have hmark : markOf? (linkedRow task launch.input.identity now) = some (launch.mark task.status) := by
        rw [launch.launchId] at hlaunch
        simp only [markOf?, linkedRow, launch.launchId, hlaunch, nonEmpty_of_truthy hlaunch, Launch.mark, if_true]
      rw [liveMarks, hlinked.rows, hrows, List.filterMap_append, hmarks, marksOf_concat, ← h.status,
        List.filterMap_cons, hmark]
      rfl
    · rw [hlinked.status, hstatus, h.status, if_neg (List.append_ne_nil_of_right_ne_nil _ (List.cons_ne_nil _ _))]
      split <;> rfl

/-- The launches whose links the task shows, after all of them were linked. -/
theorem linkAll_holds (canonicalProject : String → String) {launches owners : List Launch}
    (hdistinct : ((owners ++ launches).map fun launch => launch.failure.launchId).Nodup)
    {tasks : List LocalTask} {i : Nat} {task : LocalTask} (htask : tasks[i]? = some task) (h : Holds owners task) :
    ∃ task', (linkAll canonicalProject tasks launches)[i]? = some task' ∧
      task'.rest.origin = task.rest.origin ∧
      ∃ owners', owners'.Sublist (owners ++ launches) ∧ Holds owners' task' := by
  induction launches generalizing owners tasks task with
  | nil => exact ⟨task, htask, rfl, owners, List.sublist_append_left _ _, h⟩
  | cons launch rest ih =>
    have hsub : (owners ++ rest).Sublist (owners ++ launch :: rest) :=
      (List.sublist_cons_self launch rest).append_left owners
    have hkept := hdistinct.sublist (hsub.map _)
    obtain ⟨task', htask', hcase⟩ := afterCall_links canonicalProject tasks (launch.input, launch.deps) i task htask
    have hfresh : ∀ owner ∈ owners, owner.failure.launchId ≠ launch.failure.launchId := by
      intro owner howner
      rw [List.map_append, List.nodup_append] at hdistinct
      exact hdistinct.2.2 _ (List.mem_map_of_mem howner) _ (by simp)
    rcases hcase with rfl | hlinked
    · obtain ⟨last, hlast, horigin, owners', howners', hholds⟩ := ih hkept htask' h
      exact ⟨last, hlast, horigin, owners', howners'.trans hsub, hholds⟩
    · rcases h.link hfresh hlinked with hsame | hmore
      · obtain ⟨last, hlast, horigin, owners', howners', hholds⟩ := ih hkept htask' hsame
        exact ⟨last, hlast, horigin.trans hlinked.origin, owners', howners'.trans hsub, hholds⟩
      · have heq : (owners ++ [launch]) ++ rest = owners ++ launch :: rest := by simp
        obtain ⟨last, hlast, horigin, owners', howners', hholds⟩ := ih (heq ▸ hdistinct) htask' hmore
        exact ⟨last, hlast, horigin.trans hlinked.origin, owners', heq ▸ howners', hholds⟩

/-! ### Failures, one after the other -/

/-- The mark is one of the launch's own rows. -/
def FailedLaunchIdentity.ownsMark (launch : FailedLaunchIdentity) (mark : Mark) : Bool :=
  decide (mark.launchId = some launch.launchId) &&
    !(truthy launch.conversationId && truthy mark.conversationId &&
      decide (mark.conversationId ≠ launch.conversationId))

/-- The task after one launch failed. -/
def failOne (task : LocalTask) (launch : Launch) : LocalTask :=
  ((failTask launch.failure launch.failedAt task).map Prod.fst).getD task

theorem failAll_at (order : List Launch) (tasks : List LocalTask) (i : Nat) :
    (failAll tasks order)[i]? = tasks[i]?.map fun task => order.foldl failOne task := by
  induction order generalizing tasks with
  | nil => simp [failAll]
  | cons launch rest ih =>
    have hrest := ih (failUnstartedLaunchMembership tasks launch.failure launch.failedAt).tasks
    rw [failAll] at hrest ⊢
    rw [List.foldl_cons, hrest, failUnstartedLaunchMembership, List.getElem?_map, Option.map_map]
    rfl

theorem owns_eq_ownsMark (launch : FailedLaunchIdentity) (row : TaskAssignment) :
    launch.owns row = (markOf? row).any launch.ownsMark := by
  unfold FailedLaunchIdentity.owns markOf?
  by_cases hlinked : row.state = .linked
  · simp [hlinked, FailedLaunchIdentity.ownsMark]
  · simp [hlinked]

theorem any_owns (launch : FailedLaunchIdentity) (p : Option TaskStatus → Bool) (task : LocalTask) :
    (task.rest.assignments.any fun row => launch.owns row && p row.statusBeforeLink) =
      (liveMarks task).any fun mark => launch.ownsMark mark && p mark.statusBeforeLink := by
  unfold liveMarks
  induction task.rest.assignments with
  | nil => rfl
  | cons row rest ih =>
    rw [List.any_cons, ih, owns_eq_ownsMark, List.filterMap_cons]
    unfold markOf?
    by_cases hlinked : row.state = .linked
    · simp [hlinked]
    · simp [hlinked]

/-- The launch owns a row of the task. -/
theorem any_owns_iff (launch : FailedLaunchIdentity) (task : LocalTask) :
    task.rest.assignments.any launch.owns = true ↔ ∃ mark ∈ liveMarks task, launch.ownsMark mark = true := by
  have hany := any_owns launch (fun _ => true) task
  simp only [Bool.and_true] at hany
  rw [hany, List.any_eq_true]

theorem failRow_of_not_owned {launch : FailedLaunchIdentity} {row : TaskAssignment} (h : launch.owns row = false)
    (now : Instant) : failRow launch now row = row := by
  rw [failRow, h, if_neg Bool.false_ne_true]

/-- A failure takes away the marks of its own rows. -/
theorem markOf?_failRow (launch : FailedLaunchIdentity) (now : Instant) (row : TaskAssignment) :
    markOf? (failRow launch now row) = (markOf? row).filter fun mark => !launch.ownsMark mark := by
  cases howns : launch.owns row with
  | false =>
    rw [failRow_of_not_owned howns]
    rw [owns_eq_ownsMark] at howns
    cases hmark : markOf? row with
    | none => rfl
    | some mark =>
      rw [hmark] at howns
      simp [Option.filter, show launch.ownsMark mark = false from howns]
  | true =>
    have hfailed : markOf? (failRow launch now row) = none := by
      rw [failRow, howns, if_pos rfl, markOf?, if_neg (by simp)]
    rw [owns_eq_ownsMark] at howns
    rw [hfailed]
    cases hmark : markOf? row with
    | none => rfl
    | some mark =>
      rw [hmark] at howns
      simp [Option.filter, show launch.ownsMark mark = true from howns]

/-- The rows of a task whose live rows are all linked. -/
def OnlyLinked (task : LocalTask) : Prop :=
  ∀ row ∈ task.rest.assignments, row.state = .failed ∨ row.state = .linked

theorem live_iff {task : LocalTask} (h : OnlyLinked task) :
    (task.rest.assignments.any fun row => decide (row.state ∈ LIVE_ASSIGNMENT_STATES)) = false ↔
      liveMarks task = [] := by
  rw [liveMarks, List.filterMap_eq_nil_iff, List.any_eq_false]
  apply forall₂_congr
  intro row hrow
  rcases h row hrow with hstate | hstate <;> simp [markOf?, hstate, LIVE_ASSIGNMENT_STATES]

/-- What one failure makes of a task that the launch did not make. -/
theorem failOne_spec {task : LocalTask} {launch : Launch} (h : OnlyLinked task)
    (hmade : launch.failure.made task = false) :
    (failOne task launch).rest.assignments =
        task.rest.assignments.map (failRow launch.failure launch.failedAt) ∧
      (failOne task launch).rest.origin = task.rest.origin ∧ OnlyLinked (failOne task launch) ∧
      liveMarks (failOne task launch) = (liveMarks task).filter (fun mark => !launch.failure.ownsMark mark) ∧
      (failOne task launch).status =
        if task.status = .assigned ∧ liveMarks (failOne task launch) = [] ∧
            (liveMarks task).any (fun mark => launch.failure.ownsMark mark &&
              decide (mark.statusBeforeLink = none ∨ mark.statusBeforeLink = some .inbox)) = true
          then .inbox else task.status := by
  have hrows : (failOne task launch).rest.assignments =
      task.rest.assignments.map (failRow launch.failure launch.failedAt) := by
    unfold failOne failTask
    rw [hmade]
    by_cases howns : task.rest.assignments.any launch.failure.owns = true
    · simp [howns]
    · have hnone : ∀ row ∈ task.rest.assignments, launch.failure.owns row = false := by simpa using howns
      have hsame : task.rest.assignments.map (failRow launch.failure launch.failedAt) = task.rest.assignments :=
        (List.map_congr_left fun row hrow => failRow_of_not_owned (hnone row hrow) launch.failedAt).trans
          (List.map_id' _)
      simp only [Bool.not_eq_true] at howns
      simp [howns, hsame]
  have hstates : OnlyLinked (failOne task launch) := by
    intro row hrow
    rw [hrows] at hrow
    obtain ⟨old, hold, rfl⟩ := List.mem_map.mp hrow
    unfold failRow
    split
    · exact Or.inl rfl
    · exact h old hold
  have hmarks : liveMarks (failOne task launch) =
      (liveMarks task).filter (fun mark => !launch.failure.ownsMark mark) := by
    rw [liveMarks, liveMarks, hrows, List.filterMap_map, List.filter_filterMap]
    apply List.filterMap_congr
    intro row _
    exact markOf?_failRow launch.failure launch.failedAt row
  refine ⟨hrows, ?_, hstates, hmarks, ?_⟩
  · unfold failOne failTask
    rw [hmade]
    split
    · next hnone => exact nomatch hnone
    · split <;> rfl
  · have hlive := live_iff hstates
    rw [hrows] at hlive
    have hany := any_owns launch.failure
      (fun before => decide (before = none ∨ before = some .inbox)) task
    simp only [← hlive, ← hany]
    unfold failOne failTask
    rw [hmade]
    by_cases howns : task.rest.assignments.any launch.failure.owns = true
    · simp [howns]
    · have hnone : ∀ row ∈ task.rest.assignments, launch.failure.owns row = false := by simpa using howns
      have hfalse : (task.rest.assignments.any fun row => launch.failure.owns row &&
          decide (row.statusBeforeLink = none ∨ row.statusBeforeLink = some .inbox)) = false := by
        rw [List.any_eq_false]
        intro row hrow
        simp [hnone row hrow]
      simp only [Bool.not_eq_true] at howns
      simp only [hfalse, Bool.false_eq_true, and_false, if_false]
      simp [howns]

/-- Failures that leave a live row leave the status, and take away the marks of their rows. -/
theorem foldl_failOne {order : List Launch} {task : LocalTask} (h : OnlyLinked task)
    (hmade : ∀ launch ∈ order, launch.failure.made task = false) :
    OnlyLinked (order.foldl failOne task) ∧ (order.foldl failOne task).rest.origin = task.rest.origin ∧
      (order.foldl failOne task).rest.assignments =
        task.rest.assignments.map
          (fun row => order.foldl (fun row launch => failRow launch.failure launch.failedAt row) row) ∧
      liveMarks (order.foldl failOne task) =
        (liveMarks task).filter (fun mark => order.all fun launch => !launch.failure.ownsMark mark) ∧
      (liveMarks (order.foldl failOne task) ≠ [] → (order.foldl failOne task).status = task.status) := by
  induction order generalizing task with
  | nil => exact ⟨h, rfl, by simp, by simp, fun _ => rfl⟩
  | cons launch rest ih =>
    obtain ⟨hrows, horigin, hstates, hmarks, hstatus⟩ := failOne_spec h (hmade launch List.mem_cons_self)
    have hmade' : ∀ other ∈ rest, other.failure.made (failOne task launch) = false := by
      intro other hother
      have hother' := hmade other (List.mem_cons_of_mem _ hother)
      unfold FailedLaunchIdentity.made at hother' ⊢
      rw [horigin]
      exact hother'
    obtain ⟨hstates', horigin', hrows', hmarks', hstatus'⟩ := ih hstates hmade'
    refine ⟨hstates', horigin'.trans horigin, ?_, ?_, ?_⟩
    · rw [List.foldl_cons, hrows', hrows, List.map_map]
      rfl
    · rw [List.foldl_cons, hmarks', hmarks, List.filter_filter]
      apply List.filter_congr
      intro mark _
      rw [List.all_cons, Bool.and_comm]
    · intro hlive
      have hlive' : liveMarks (failOne task launch) ≠ [] := by
        intro hnil
        rw [List.foldl_cons, hmarks', hnil] at hlive
        exact hlive rfl
      rw [List.foldl_cons, hstatus' hlive, hstatus, if_neg fun hall => hlive' hall.2.1]

/-- Failures of launches that own no row leave the status. -/
theorem foldl_failOne_of_not_owned {order : List Launch} {task : LocalTask} (h : OnlyLinked task)
    (hmade : ∀ launch ∈ order, launch.failure.made task = false)
    (hnone : ∀ launch ∈ order, ∀ mark ∈ liveMarks task, launch.failure.ownsMark mark = false) :
    (order.foldl failOne task).status = task.status := by
  induction order generalizing task with
  | nil => rfl
  | cons launch rest ih =>
    obtain ⟨-, horigin, hstates, hmarks, hstatus⟩ := failOne_spec h (hmade launch List.mem_cons_self)
    have hsame : liveMarks (failOne task launch) = liveMarks task := by
      rw [hmarks, List.filter_eq_self]
      intro mark hmark
      simp [hnone launch List.mem_cons_self mark hmark]
    rw [List.foldl_cons, ih hstates, hstatus, if_neg]
    · rintro ⟨-, -, hany⟩
      obtain ⟨mark, hmark, hboth⟩ := List.any_eq_true.mp hany
      rw [hnone launch List.mem_cons_self mark hmark, Bool.false_and] at hboth
      exact Bool.false_ne_true hboth
    · intro other hother
      have hother' := hmade other (List.mem_cons_of_mem _ hother)
      unfold FailedLaunchIdentity.made at hother' ⊢
      rw [horigin]
      exact hother'
    · rw [hsame]
      exact fun other hother => hnone other (List.mem_cons_of_mem _ hother)

/-! ### The order of the failures -/

theorem Launch.ownsMark_mark (launch : Launch) (before : TaskStatus) :
    launch.failure.ownsMark (launch.mark before) = true := by
  unfold FailedLaunchIdentity.ownsMark Launch.mark
  cases hgiven : truthy launch.input.identity.conversationId with
  | false => simp [hgiven]
  | true =>
    cases hheld : truthy launch.failure.conversationId with
    | false => simp
    | true =>
      rw [nonEmpty_of_truthy hgiven, launch.conversation hgiven hheld]
      simp

/-- Only the row of the first launch remembers Inbox. -/
theorem first_of_inbox {owners : List Launch} {mark : Mark} (h : mark ∈ marksOf owners)
    (hinbox : mark.statusBeforeLink = none ∨ mark.statusBeforeLink = some .inbox) :
    ∃ first rest, owners = first :: rest ∧ mark = first.mark .inbox := by
  cases owners with
  | nil => exact nomatch h
  | cons first rest =>
    rcases List.mem_cons.mp h with rfl | hmem
    · exact ⟨first, rest, rfl, rfl⟩
    · obtain ⟨launch, -, rfl⟩ := List.mem_map.mp hmem
      simp [Launch.mark] at hinbox

theorem firstLinked_launchId {owners : List Launch} {task : LocalTask} (h : Holds owners task) :
    (firstLinked task).map TaskAssignment.launchId =
      owners.head?.map fun launch => some launch.failure.launchId := by
  have hhead : (firstLinked task).map TaskAssignment.launchId = (liveMarks task).head?.map Mark.launchId := by
    unfold firstLinked liveMarks
    induction task.rest.assignments with
    | nil => rfl
    | cons row rest ih =>
      rw [List.find?_cons, List.filterMap_cons, markOf?]
      by_cases hlinked : row.state = .linked
      · simp [hlinked]
      · simpa [hlinked] using ih
  rw [hhead, h.marks]
  cases owners <;> rfl

/-- The last of an order that satisfies a test, with what is before and after it. -/
theorem find?_reverse_split {α : Type} {p : α → Bool} {xs : List α} {x : α} (h : xs.reverse.find? p = some x) :
    ∃ pre post, xs = pre ++ x :: post ∧ p x = true ∧ ∀ y ∈ post, p y = false := by
  obtain ⟨hp, pre, post, hsplit, hpre⟩ := List.find?_eq_some_iff_append.mp h
  refine ⟨post.reverse, pre.reverse, ?_, hp, ?_⟩
  · have hreverse := congrArg List.reverse hsplit
    simpa using hreverse
  · intro y hy
    simpa using hpre y (List.mem_reverse.mp hy)

/-- After all failures the task is in Inbox exactly when the launch of its first live row was the last
of the owners. -/
theorem status_after_failures {owners order : List Launch} {task : LocalTask} (h : Holds owners task)
    (hdistinct : (order.map fun launch => launch.failure.launchId).Nodup)
    (howners : ∀ owner ∈ owners, owner ∈ order)
    (hmade : ∀ launch ∈ order, launch.failure.made task = false) :
    (order.foldl failOne task).status = .inbox ↔ FirstFailsLast task order := by
  have hsame : ∀ {a b : Launch}, a ∈ order → b ∈ order → a.failure.launchId = b.failure.launchId → a = b :=
    fun ha hb => List.inj_on_of_nodup_map hdistinct ha hb
  unfold FirstFailsLast
  rw [firstLinked_launchId h]
  cases hlast : lastOwner task order with
  | none =>
    have hnone : ∀ launch ∈ order, ∀ mark ∈ liveMarks task, launch.failure.ownsMark mark = false := by
      intro launch hlaunch mark hmark
      have hnot := List.find?_eq_none.mp hlast launch (List.mem_reverse.mpr hlaunch)
      rw [any_owns_iff] at hnot
      exact Bool.eq_false_iff.mpr fun howns => hnot ⟨mark, hmark, howns⟩
    have hempty : owners = [] := by
      cases owners with
      | nil => rfl
      | cons first rest =>
        have hmark : first.mark .inbox ∈ liveMarks task := by
          rw [h.marks]
          exact List.mem_cons_self
        have hfalse := hnone first (howners first List.mem_cons_self) _ hmark
        rw [first.ownsMark_mark] at hfalse
        exact nomatch hfalse
    rw [foldl_failOne_of_not_owned h.states hmade hnone, h.status, hempty]
    simp
  | some last =>
    obtain ⟨pre, post, rfl, howns, hpost⟩ := find?_reverse_split hlast
    obtain ⟨ownMark, hownMark, hown⟩ := (any_owns_iff _ _).mp howns
    obtain ⟨hstates, horigin, -, hmarks, hstatus⟩ :=
      @foldl_failOne pre task h.states fun launch hlaunch => hmade launch (List.mem_append_left _ hlaunch)
    -- what is live before the last owner fails are its own rows
    have hkept : ∀ mark, mark ∈ liveMarks (pre.foldl failOne task) →
        mark ∈ marksOf owners ∧ mark.launchId = some last.failure.launchId := by
      intro mark hmark
      rw [hmarks, List.mem_filter, h.marks] at hmark
      obtain ⟨hmem, hfree⟩ := hmark
      obtain ⟨owner, howner, before, rfl⟩ := mem_marksOf hmem
      have hordered := howners owner howner
      refine ⟨hmem, ?_⟩
      rcases List.mem_append.mp hordered with hpre | hrest
      · have hnot := List.all_eq_true.mp hfree owner hpre
        simp [owner.ownsMark_mark] at hnot
      · rcases List.mem_cons.mp hrest with rfl | hafter
        · rfl
        · have hnot := hpost owner hafter
          rw [← Bool.not_eq_true, any_owns_iff, h.marks] at hnot
          exact absurd ⟨_, hmem, owner.ownsMark_mark before⟩ hnot
    have hlater : ∀ mark ∈ liveMarks task, mark.launchId = some last.failure.launchId →
        mark ∈ liveMarks (pre.foldl failOne task) := by
      intro mark hmark hid
      rw [hmarks, List.mem_filter]
      refine ⟨hmark, List.all_eq_true.mpr fun launch hlaunch => ?_⟩
      rw [Bool.not_eq_true', ← Bool.not_eq_true]
      intro hlaunchOwns
      unfold FailedLaunchIdentity.ownsMark at hlaunchOwns
      rw [Bool.and_eq_true, decide_eq_true_eq, hid] at hlaunchOwns
      rw [List.map_append, List.nodup_append] at hdistinct
      exact hdistinct.2.2 _ (List.mem_map_of_mem hlaunch) _ (by simp) (Option.some.inj hlaunchOwns.1).symm
    have hownId : ownMark.launchId = some last.failure.launchId := by
      unfold FailedLaunchIdentity.ownsMark at hown
      rw [Bool.and_eq_true, decide_eq_true_eq] at hown
      exact hown.1
    have hlive : liveMarks (pre.foldl failOne task) ≠ [] := List.ne_nil_of_mem (hlater ownMark hownMark hownId)
    have hmid : (pre.foldl failOne task).status = .assigned := by
      rw [hstatus hlive, h.status, if_neg]
      rintro rfl
      rw [h.marks] at hownMark
      exact nomatch hownMark
    generalize hfold : pre.foldl failOne task = mid at hstates horigin hkept hlater hmid
    have hmadeMid : ∀ launch ∈ last :: post, launch.failure.made mid = false := by
      intro launch hlaunch
      have hmadeTask := hmade launch (List.mem_append_right _ hlaunch)
      unfold FailedLaunchIdentity.made at hmadeTask ⊢
      rwa [horigin]
    obtain ⟨-, horigin', hstates', hmarks', hstatus'⟩ := failOne_spec hstates (hmadeMid last List.mem_cons_self)
    have howned : ∀ mark ∈ liveMarks mid, last.failure.ownsMark mark = true := by
      intro mark hmark
      obtain ⟨hmem, hid⟩ := hkept mark hmark
      obtain ⟨owner, howner, before, rfl⟩ := mem_marksOf hmem
      obtain rfl := hsame (howners owner howner) (by simp) (Option.some.inj hid)
      exact owner.ownsMark_mark before
    have hnil : liveMarks (failOne mid last) = [] := by
      rw [hmarks', List.filter_eq_nil_iff]
      intro mark hmark
      simp [howned mark hmark]
    have hrest : (post.foldl failOne (failOne mid last)).status = (failOne mid last).status := by
      apply foldl_failOne_of_not_owned hstates'
      · intro launch hlaunch
        have hmadeLaunch := hmadeMid launch (List.mem_cons_of_mem _ hlaunch)
        unfold FailedLaunchIdentity.made at hmadeLaunch ⊢
        rwa [horigin']
      · rw [hnil]
        exact fun launch _ mark hmark => nomatch hmark
    rw [List.foldl_append, List.foldl_cons, hfold, hrest, hstatus', hmid]
    have hiff : ((liveMarks mid).any fun mark => last.failure.ownsMark mark &&
        decide (mark.statusBeforeLink = none ∨ mark.statusBeforeLink = some .inbox)) = true ↔
        (some last).map (fun launch => some launch.failure.launchId) =
          owners.head?.map fun launch => some launch.failure.launchId := by
      rw [List.any_eq_true]
      constructor
      · rintro ⟨mark, hmark, hboth⟩
        obtain ⟨hmem, hid⟩ := hkept mark hmark
        rw [Bool.and_eq_true, decide_eq_true_eq] at hboth
        obtain ⟨first, rest, rfl, rfl⟩ := first_of_inbox hmem hboth.2
        exact congrArg some hid.symm
      · intro hfirst
        cases owners with
        | nil => exact nomatch hfirst
        | cons first rest =>
          have hid : (first.mark .inbox).launchId = some last.failure.launchId := (Option.some.inj hfirst).symm
          have hmark := hlater (first.mark .inbox) (h.marks ▸ List.mem_cons_self) hid
          refine ⟨_, hmark, ?_⟩
          rw [howned _ hmark]
          simp [Launch.mark]
    rw [← hiff]
    generalize ((liveMarks mid).any fun mark => last.failure.ownsMark mark &&
      decide (mark.statusBeforeLink = none ∨ mark.statusBeforeLink = some .inbox)) = restores
    cases restores with
    | false => simp
    | true => simp [hnil]

/-- Failures of different launches of one row can change places. -/
theorem failRow_comm {a b : Launch} (h : a.failure.launchId = b.failure.launchId → a = b) (row : TaskAssignment) :
    failRow b.failure b.failedAt (failRow a.failure a.failedAt row) =
      failRow a.failure a.failedAt (failRow b.failure b.failedAt row) := by
  have hfailed : ∀ (launch other : Launch), launch.failure.owns row = true →
      other.failure.owns (failRow launch.failure launch.failedAt row) = false := by
    intro launch other howns
    rw [failRow, howns, if_pos rfl]
    simp [FailedLaunchIdentity.owns]
  by_cases hsame : a = b
  · rw [hsame]
  · cases ha : a.failure.owns row with
    | false =>
      rw [failRow_of_not_owned ha]
      cases hb : b.failure.owns row with
      | false => rw [failRow_of_not_owned hb, failRow_of_not_owned ha]
      | true => rw [failRow_of_not_owned (hfailed b a hb)]
    | true =>
      have hb : b.failure.owns row = false := by
        unfold FailedLaunchIdentity.owns at ha
        rw [Bool.and_eq_true, decide_eq_true_eq] at ha
        have hne : ¬row.launchId = some b.failure.launchId := fun hid =>
          hsame (h (Option.some.inj (ha.1.2.symm.trans hid)))
        simp [FailedLaunchIdentity.owns, hne]
      rw [failRow_of_not_owned hb, failRow_of_not_owned (hfailed a b ha)]

/-- **An Inbox task goes back to Inbox** exactly when the launch of its first linked row is the last of
those that own a row to fail; the rows end the same in every order. -/
theorem failed_launches_restore_inbox (canonicalProject : String → String) (tasks : List LocalTask) (i : Nat)
    (task : LocalTask) (launches order : List Launch) (htask : tasks[i]? = some task)
    (hinbox : task.status = .inbox) (hdead : ∀ assignment ∈ task.rest.assignments, assignment.state = .failed)
    (hdistinct : (launches.map fun launch => launch.failure.launchId).Nodup)
    (hmade : ∀ launch ∈ launches, launch.failure.made task = false) (horder : order.Perm launches) :
    ∃ linked failed, (linkAll canonicalProject tasks launches)[i]? = some linked ∧
      (failAll (linkAll canonicalProject tasks launches) order)[i]? = some failed ∧
      (failed.status = .inbox ↔ FirstFailsLast linked order) ∧
      ∀ order', order'.Perm launches → ∃ failed',
        (failAll (linkAll canonicalProject tasks launches) order')[i]? = some failed' ∧
          failed'.rest.assignments = failed.rest.assignments := by
  have hholds : Holds [] task := by
    refine ⟨fun row hrow => Or.inl (hdead row hrow), ?_, hinbox⟩
    rw [liveMarks, List.filterMap_eq_nil_iff.mpr]
    · rfl
    · intro row hrow
      simp [markOf?, hdead row hrow]
  obtain ⟨linked, hlinked, horigin, owners, howners, hlinkedHolds⟩ :=
    @linkAll_holds canonicalProject launches [] (by simpa using hdistinct) tasks i task htask hholds
  have hmade' : ∀ launch ∈ launches, launch.failure.made linked = false := by
    intro launch hlaunch
    have hmadeTask := hmade launch hlaunch
    unfold FailedLaunchIdentity.made at hmadeTask ⊢
    rwa [horigin]
  have hrows : ∀ order' : List Launch, order'.Perm launches →
      (order'.foldl failOne linked).rest.assignments = linked.rest.assignments.map
        (fun row => launches.foldl (fun row launch => failRow launch.failure launch.failedAt row) row) := by
    intro order' hperm
    obtain ⟨-, -, hfold, -, -⟩ := @foldl_failOne order' linked hlinkedHolds.states
      fun launch hlaunch => hmade' launch (hperm.mem_iff.mp hlaunch)
    rw [hfold]
    apply List.map_congr_left
    intro row _
    apply hperm.foldl_eq'
    intro a ha b hb row
    exact failRow_comm (fun hid => List.inj_on_of_nodup_map hdistinct (hperm.mem_iff.mp ha)
      (hperm.mem_iff.mp hb) hid) row
  refine ⟨linked, order.foldl failOne linked, hlinked, ?_, ?_, ?_⟩
  · rw [failAll_at, hlinked, Option.map_some]
  · apply status_after_failures hlinkedHolds
    · exact (horder.map _).nodup_iff.mpr hdistinct
    · exact fun owner howner => horder.mem_iff.mpr (by simpa using howners.subset howner)
    · exact fun launch hlaunch => hmade' launch (horder.mem_iff.mp hlaunch)
  · intro order' hperm
    refine ⟨order'.foldl failOne linked, ?_, ?_⟩
    · rw [failAll_at, hlinked, Option.map_some]
    · rw [hrows order' hperm, hrows order horder]

/-! ### Two launches of one task -/

/-- An Inbox task that nothing was linked to. -/
def waitingTask : LocalTask :=
  { barePlaceholder resumeInput ⟨noon, "task-1"⟩ with rest := default }

/-- A launch that targets the task. -/
def targetedLaunch (launchId : String) (h : launchId ≠ "") : Launch where
  input := { resumeInput with
    origin := (.launch, launchId), identity := ⟨none, some launchId, none, none, none, none⟩
    explicitTaskIds := ["task-1"] }
  deps := resumeDeps
  failure := ⟨launchId, none, none, none⟩
  failedAt := noon
  named := h
  launchId := rfl
  conversation _ hfailure := nomatch hfailure

def earlyLaunch : Launch := targetedLaunch "early" (by decide)

def lateLaunch : Launch := targetedLaunch "late" (by decide)

theorem failed_launches_restore_inbox_late_first :
    ∃ linked failed, (linkAll id [waitingTask] [earlyLaunch, lateLaunch])[0]? = some linked ∧
      (failAll (linkAll id [waitingTask] [earlyLaunch, lateLaunch]) [lateLaunch, earlyLaunch])[0]? = some failed ∧
      (failed.status = .inbox ↔ FirstFailsLast linked [lateLaunch, earlyLaunch]) ∧
      ∀ order' : List Launch, order'.Perm [earlyLaunch, lateLaunch] → ∃ failed',
        (failAll (linkAll id [waitingTask] [earlyLaunch, lateLaunch]) order')[0]? = some failed' ∧
          failed'.rest.assignments = failed.rest.assignments :=
  failed_launches_restore_inbox id [waitingTask] 0 waitingTask [earlyLaunch, lateLaunch] [lateLaunch, earlyLaunch]
    rfl rfl (fun _ h => nomatch h) (by decide) (by decide) (List.Perm.swap _ _ _)

/-- The launch that moved the task fails first: the other one's row remembers Assigned. -/
theorem late_launch_keeps_assigned :
    ¬∀ (tasks : List LocalTask) (i : Nat) (task : LocalTask) (launches order : List Launch),
      tasks[i]? = some task → task.status = .inbox →
      (∀ assignment ∈ task.rest.assignments, assignment.state = .failed) →
      (launches.map fun launch => launch.failure.launchId).Nodup →
      (∀ launch ∈ launches, launch.failure.made task = false) → order.Perm launches →
      ∃ failed, (failAll (linkAll id tasks launches) order)[i]? = some failed ∧ failed.status = .inbox := by
  intro hall
  obtain ⟨failed, hfailed, hstatus⟩ := hall [waitingTask] 0 waitingTask [earlyLaunch, lateLaunch]
    [earlyLaunch, lateLaunch] rfl rfl (fun _ h => nomatch h) (by decide) (by decide) (List.Perm.refl _)
  have hassigned : ((failAll (linkAll id [waitingTask] [earlyLaunch, lateLaunch])
      [earlyLaunch, lateLaunch])[0]?).map LinkedBoards.BoardTask.status = some .assigned := by
    decide
  rw [hfailed, Option.map_some, hstatus] at hassigned
  exact nomatch Option.some.inj hassigned

end Delegatus.TaskMembership
