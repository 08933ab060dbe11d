import Delegatus.LinkedMembership

/-!
# When a page is refused

A page is one write: one row that throws, or one row that its commit refuses, fails the
page, and the same page fails at every later exchange.  Three refusals are not about the
page being malformed: the deletion of a proactive task, the deletion of a task that holds a
conversation under a blank admission key, and a status that makes a task done whose
decision is not delivered yet.

`page_never_wedges_iff` says that these are all, and that what an applied page leaves
undeleted is what stood beside its tombstone already.
-/

namespace Delegatus.LinkedBoards

open LinkStamps Refusals

/-! ### Membership -/

theorem withTaskCompletion_isOk (task previous : LocalTask) :
    (∃ rest, withTaskCompletion task previous = .ok rest) ↔
      ¬ (task.status = .done ∧ previous.status ≠ .done ∧ hasUndeliveredDecision task = true) := by
  unfold withTaskCompletion
  by_cases hdone : task.status = .done
  · rw [if_neg (not_not.mpr hdone)]
    by_cases hrefused : previous.status ≠ .done ∧ hasUndeliveredDecision task = true
    · rw [if_pos hrefused]
      simp [hdone, hrefused.1, hrefused.2]
    · rw [if_neg hrefused]
      exact iff_of_true ⟨_, rfl⟩ (fun h => hrefused ⟨h.2.1, h.2.2⟩)
  · rw [if_pos hdone]
    exact iff_of_true ⟨_, rfl⟩ (fun h => hdone h.1)

/-- An upsert makes no task done. -/
theorem upsertLinked_status (task : LocalTask) (identity : MembershipIdentity) (now : Instant)
    (h : (upsertLinked task identity now).1.status = .done) : task.status = .done := by
  unfold upsertLinked at h
  split at h
  · dsimp only at h
    split at h
    · exact h
    · exact h
  · dsimp only at h
    split at h
    · cases h
    · exact h

theorem commitMembership_isOk (task : LocalTask) (identity : MembershipIdentity) (now : Instant) :
    ∃ memberships, commitMembership task identity now = .ok memberships := by
  unfold commitMembership
  dsimp only
  split
  · have hcompletes := (withTaskCompletion_isOk (upsertLinked task identity now).1 task).mpr
      (fun h => h.2.1 (upsertLinked_status task identity now h.1))
    obtain ⟨rest, hrest⟩ := hcompletes
    rw [hrest]
    exact ⟨_, rfl⟩
  · exact ⟨_, rfl⟩

theorem commitMemberships_isOk (tasks : List LocalTask) (identity : MembershipIdentity)
    (now : Instant) : ∃ memberships, commitMemberships tasks identity now = .ok memberships := by
  induction tasks with
  | nil => exact ⟨[], rfl⟩
  | cons task rest ih =>
    obtain ⟨first, hfirst⟩ := commitMembership_isOk task identity now
    obtain ⟨others, hothers⟩ := ih
    exact ⟨first ++ others, by rw [commitMemberships, hfirst, hothers]⟩

/-- **Membership is refused only for a blank project, a blank key or no identity.** -/
theorem ensureTaskMembership_isOk (tasks : List LocalTask) (input : MembershipInput)
    (now : Instant) (id : String) :
    (∃ memberships, ensureTaskMembership tasks input now id = .ok memberships) ↔
      JsStrings.trim input.project ≠ "" ∧ JsStrings.trim input.origin.2 ≠ "" ∧
        hasIdentity input.identity = true := by
  unfold ensureTaskMembership
  dsimp only
  by_cases hproject : JsStrings.trim input.project = ""
  · rw [if_pos hproject]
    simp [hproject]
  · rw [if_neg hproject]
    by_cases hkey : JsStrings.trim input.origin.2 = ""
    · rw [if_pos hkey]
      simp [hkey]
    · rw [if_neg hkey]
      by_cases hidentity : hasIdentity input.identity = true
      · rw [if_neg (by simp [hidentity])]
        refine iff_of_true ?_ ⟨hproject, hkey, hidentity⟩
        split
        · exact commitMembership_isOk _ _ _
        · split
          · exact commitMemberships_isOk _ _ _
          · exact ⟨_, rfl⟩
      · rw [if_pos (by simpa using hidentity)]
        simp [hidentity]

theorem lostAdmission_hasIdentity {tasks : List LocalTask} {assignment : TaskAssignment}
    {identity : MembershipIdentity} {origin : OriginKind × String}
    (h : lostAdmission tasks assignment = some (identity, origin)) : hasIdentity identity = true := by
  unfold lostAdmission at h
  split at h
  · cases h
  · split at h
    · rename_i found _ hfound _
      split at h
      · cases h
      · obtain ⟨rfl, -⟩ := Prod.mk.inj (Option.some.inj h)
        unfold assignmentIdentity at hfound
        dsimp only at hfound
        split at hfound
        · rename_i hidentity
          exact Option.some.inj hfound ▸ hidentity
        · cases hfound
    · cases h

/-- The conversation of the row is not lost, or is lost under a key that is not blank. -/
def KeyedRow (acc : Replacing) (assignment : TaskAssignment) : Prop :=
  ∀ identity origin, lostAdmission acc.tasks.rows assignment = some (identity, origin) →
    JsStrings.trim origin.2 ≠ ""

theorem replaceLost_isOk (drawn : Drawn) (taskId : String) {project : String}
    (hproject : JsStrings.trim project ≠ "") (acc : Replacing) (assignment : TaskAssignment) :
    (∃ next, replaceLost drawn taskId project acc assignment = .ok next) ↔
      KeyedRow acc assignment := by
  unfold replaceLost KeyedRow
  cases hlost : lostAdmission acc.tasks.rows assignment with
  | none => simp
  | some admission =>
    obtain ⟨identity, origin⟩ := admission
    dsimp only
    have hensure := ensureTaskMembership_isOk acc.tasks.rows ⟨project, origin, identity⟩
      (drawn.isoNow taskId acc.index) (drawn.randomUUID taskId acc.index)
    dsimp only at hensure
    have hidentity := lostAdmission_hasIdentity hlost
    cases hresult : ensureTaskMembership acc.tasks.rows ⟨project, origin, identity⟩
        (drawn.isoNow taskId acc.index) (drawn.randomUUID taskId acc.index) with
    | ok memberships =>
      have hkey := (hensure.mp ⟨memberships, hresult⟩).2.1
      refine iff_of_true ⟨_, rfl⟩ ?_
      intro identity' origin' heq
      obtain ⟨-, rfl⟩ := Prod.mk.inj (Option.some.inj heq)
      exact hkey
    | error error =>
      refine iff_of_false (by simp [Except.map]) ?_
      intro hkeyed
      obtain ⟨memberships, hok⟩ := hensure.mpr ⟨hproject, hkeyed identity origin rfl, hidentity⟩
      rw [hresult] at hok
      cases hok

/-- A deleted task loses no conversation under a blank key. -/
def KeyedMemberships (drawn : Drawn) (tasks : List LocalTask) (task : LocalTask) : Prop :=
  Accepted (replaceLost drawn task.id task.project) KeyedRow ⟨Table.ofList tasks, [], 0⟩
    task.rest.assignments

theorem replaceLostMemberships_isOk (drawn : Drawn) (tasks : List LocalTask) (task : LocalTask)
    (hproject : JsStrings.trim task.project ≠ "") :
    (∃ memberships, replaceLostMemberships drawn tasks task = .ok memberships) ↔
      KeyedMemberships drawn tasks task := by
  have hrun : (∃ out, run (replaceLost drawn task.id task.project) ⟨Table.ofList tasks, [], 0⟩
        task.rest.assignments = .ok out) ↔
      Accepted (replaceLost drawn task.id task.project) KeyedRow ⟨Table.ofList tasks, [], 0⟩
        task.rest.assignments :=
    run_isOk_iff (I := fun _ => True) (fun _ _ _ _ _ _ => trivial)
      (fun acc assignment _ _ => replaceLost_isOk drawn task.id hproject acc assignment) trivial
  unfold replaceLostMemberships KeyedMemberships
  rw [map_isOk, hrun]

/-- A deletion refuses a proactive task and a blank key, and nothing else. -/
theorem deleteTask_isOk (context : LocalContext) (tasks : Tasks LocalPart) (task : LocalTask)
    (hproject : JsStrings.trim task.project ≠ "") :
    (∃ next, deleteTask context.write tasks task = .ok next) ↔
      task.proactive = false ∧ KeyedMemberships context.drawn (tasks.delete task.id).rows task := by
  unfold deleteTask
  cases hproactive : task.proactive with
  | true => simp
  | false =>
    rw [← replaceLostMemberships_isOk context.drawn (tasks.delete task.id).rows task hproject]
    have hlost : context.write.lostMemberships (tasks.delete task.id).rows task =
        replaceLostMemberships context.drawn (tasks.delete task.id).rows task := rfl
    simp only [Bool.false_eq_true, if_false, hlost, true_and]
    exact map_isOk

/-! ### The task of an id, row by row -/

section Ids

variable {ρ : Type}

/-- The project of the task that is held under an id. -/
def projectAt (tasks : Tasks ρ) (id : String) : Option String := (tasks.get? id).map BoardTask.project

/-- No deletion draws the id for a placeholder. -/
def NeverPlaced (ctx : WriteContext ρ) (id : String) : Prop :=
  ∀ tasks task memberships, ctx.lostMemberships tasks task = .ok memberships →
    ∀ text createdAt rest, Membership.placeholder id text createdAt rest ∉ memberships

/-- Both installs share the project. -/
def SharedHere (ctx : WriteContext ρ) (link : ApplyLink) (project : String) : Prop :=
  project ∈ link.projects ∧ project ∈ ctx.linked

/-- The row is not dropped: its project is shared, and its id holds no tombstone. -/
def Reaches (ctx : WriteContext ρ) (link : ApplyLink) (page : PageState ρ) (row : WireRow) : Prop :=
  SharedHere ctx link row.project ∧ page.companion.isTombstone row.id = false

theorem projectAt_bindMembership {project id : String} {tasks : Tasks ρ}
    {membership : Membership ρ}
    (h : ∀ text createdAt rest, membership ≠ .placeholder id text createdAt rest) :
    projectAt (bindMembership project tasks membership) id = projectAt tasks id := by
  cases membership with
  | upsertLinked task added updatedAt rest =>
    unfold projectAt bindMembership Table.modify
    dsimp only
    rw [Table.get?_mapRows, Option.map_map]
    apply congrArg (fun f => Option.map f (tasks.get? id))
    funext row
    by_cases hrow : row.id = task
    · simp [hrow]
    · simp [hrow]
  | placeholder placed text createdAt rest =>
    have hid : id ≠ placed := by
      rintro rfl
      exact h text createdAt rest rfl
    unfold projectAt bindMembership
    rw [Table.get?_set, if_neg hid]

theorem projectAt_bindMemberships {project id : String} {memberships : List (Membership ρ)}
    {tasks : Tasks ρ}
    (h : ∀ text createdAt rest, Membership.placeholder id text createdAt rest ∉ memberships) :
    projectAt (memberships.foldl (bindMembership project) tasks) id = projectAt tasks id := by
  induction memberships generalizing tasks with
  | nil => rfl
  | cons membership rest ih =>
    rw [List.foldl_cons, ih (fun text createdAt local' hmem =>
      h text createdAt local' (List.mem_cons_of_mem _ hmem))]
    apply projectAt_bindMembership
    rintro text createdAt local' rfl
    exact h text createdAt local' List.mem_cons_self

/-- A deletion takes its task away and leaves the projects of the others. -/
theorem projectAt_deleteTask {ctx : WriteContext ρ} {tasks next : Tasks ρ} {task : BoardTask ρ}
    {id : String} (hplaced : NeverPlaced ctx id) (h : deleteTask ctx tasks task = .ok next) :
    projectAt next id = if id = task.id then none else projectAt tasks id := by
  unfold deleteTask at h
  split at h
  · cases h
  · dsimp only at h
    cases hlost : ctx.lostMemberships (tasks.delete task.id).rows task with
    | error error =>
      rw [hlost] at h
      simp [Except.map] at h
    | ok memberships =>
      rw [hlost] at h
      simp only [Except.map, Except.ok.injEq] at h
      rw [← h, projectAt_bindMemberships (hplaced _ _ _ hlost), projectAt, Table.get?_delete]
      by_cases hid : id = task.id
      · rw [if_pos hid, if_pos hid]
        rfl
      · rw [if_neg hid, if_neg hid]
        rfl

variable [DecidableEq ρ] [Inhabited ρ]

omit [DecidableEq ρ] [Inhabited ρ] in
/-- A deletion row that does not throw: it found no task, or deleted it. -/
theorem applyGone_cases {ctx : WriteContext ρ} {link : ApplyLink} {page page' : PageState ρ}
    {row : WireGone} (h : applyGone ctx link page row = .ok page') :
    (∀ id, page'.companion.isTombstone id = true ↔
        id = row.id ∨ page.companion.isTombstone id = true) ∧
      ((page.tasks.get? row.id = none ∧ page'.tasks = page.tasks) ∨
        ∃ task, page.tasks.get? row.id = some task ∧
          deleteTask ctx page.tasks task = .ok page'.tasks) := by
  unfold applyGone at h
  dsimp only at h
  split at h
  · rename_i hheld
    obtain rfl := Except.ok.inj h
    exact ⟨isTombstone_buryFromPeer link _ row _, Or.inl ⟨hheld, rfl⟩⟩
  · rename_i task hheld
    cases hdelete : deleteTask ctx page.tasks task with
    | error error =>
      rw [hdelete] at h
      simp [Except.map] at h
    | ok tasks =>
      rw [hdelete] at h
      simp only [Except.map, Except.ok.injEq] at h
      subst h
      exact ⟨isTombstone_buryFromPeer link _ row _, Or.inr ⟨task, hheld, hdelete⟩⟩

omit [DecidableEq ρ] [Inhabited ρ] in
/-- A deletion row takes the task of its id away, if one is held. -/
theorem projectAt_applyGone {ctx : WriteContext ρ} {link : ApplyLink} {page page' : PageState ρ}
    {row : WireGone} {id : String} (hplaced : NeverPlaced ctx id)
    (h : applyGone ctx link page row = .ok page') :
    projectAt page'.tasks id = if id = row.id then none else projectAt page.tasks id := by
  rcases (applyGone_cases h).2 with ⟨hnone, htasks⟩ | ⟨task, hheld, hdelete⟩
  · rw [htasks]
    by_cases hid : id = row.id
    · rw [if_pos hid, hid, projectAt, hnone]
      rfl
    · rw [if_neg hid]
  · rw [projectAt_deleteTask hplaced hdelete, (Table.get?_eq_some.mp hheld).2]

omit [DecidableEq ρ] [Inhabited ρ] in
theorem applyStub_frame (page : PageState ρ) (row : WireStub) :
    (applyStub page row).tasks = page.tasks ∧
      (applyStub page row).companion.tombstones = page.companion.tombstones := by
  unfold applyStub
  dsimp only
  split
  · exact ⟨rfl, rfl⟩
  · exact ⟨rfl, rfl⟩

/-- A live row leaves the other ids, and the project of a copy that is held. -/
theorem projectAt_applyLive (checks : WireChecks) (ctx : WriteContext ρ) (link : ApplyLink)
    (page : PageState ρ) (row : WireTask) :
    (∀ id, id ≠ row.id →
        projectAt (applyLive checks ctx link page row).tasks id = projectAt page.tasks id) ∧
      projectAt (applyLive checks ctx link page row).tasks row.id =
        some ((projectAt page.tasks row.id).getD row.project) := by
  cases hheld : page.tasks.get? row.id with
  | none =>
    obtain ⟨⟨task, harrived, hget⟩, hothers, -⟩ := applyLive_absent checks ctx link hheld
    refine ⟨fun id hid => by rw [projectAt, hothers id hid, projectAt], ?_⟩
    rw [projectAt, hget, projectAt, hheld]
    exact congrArg some harrived.project
  | some held =>
    obtain ⟨⟨task, hmerge, hget⟩, hothers, -⟩ := applyLive_present checks ctx link hheld
    refine ⟨fun id hid => by rw [projectAt, hothers id hid, projectAt], ?_⟩
    rw [projectAt, hget, projectAt, hheld]
    exact congrArg some hmerge.project

/-- What a row that is not dropped does to the task of an id, and to the tombstones. -/
structure RowEffect (ctx : WriteContext ρ) (row : WireRow) (page page' : PageState ρ) : Prop where
  elsewhere : ∀ id, NeverPlaced ctx id → id ≠ row.id →
    projectAt page'.tasks id = projectAt page.tasks id
  gone : ∀ gone, row = .gone gone → NeverPlaced ctx row.id → projectAt page'.tasks row.id = none
  held : (∀ gone, row ≠ .gone gone) → projectAt page'.tasks row.id = projectAt page.tasks row.id ∨
    projectAt page'.tasks row.id = some ((projectAt page.tasks row.id).getD row.project)
  tombstones : ∀ id, page'.companion.isTombstone id = true ↔
    ((∃ gone, row = .gone gone) ∧ id = row.id) ∨ page.companion.isTombstone id = true

/-- **One row of a page** is dropped, or has its effect. -/
theorem applyRow_ok {checks : WireChecks} {ctx : WriteContext ρ} {link : ApplyLink}
    {page page' : PageState ρ} {row : WireRow} (h : applyRow checks ctx link page row = .ok page') :
    (¬ Reaches ctx link page row ∧ page' = page) ∨
      (Reaches ctx link page row ∧ RowEffect ctx row page page') := by
  unfold applyRow at h
  split at h
  · rename_i hunshared
    obtain rfl := Except.ok.inj h
    refine Or.inl ⟨?_, rfl⟩
    rintro ⟨⟨hlink, hlinked⟩, -⟩
    rcases hunshared with hnot | hnot
    · exact hnot hlink
    · exact hnot hlinked
  · rename_i hshared
    push Not at hshared
    split at h
    · cases h
    · split at h
      · rename_i htomb
        obtain rfl := Except.ok.inj h
        refine Or.inl ⟨?_, rfl⟩
        rintro ⟨-, hno⟩
        rw [htomb] at hno
        cases hno
      · rename_i hno
        refine Or.inr ⟨⟨hshared, Bool.not_eq_true _ ▸ hno⟩, ?_⟩
        cases row with
        | gone row =>
          constructor
          · intro id hplaced hid
            rw [projectAt_applyGone hplaced h]
            exact if_neg hid
          · intro gone _ hplaced
            rw [projectAt_applyGone hplaced h]
            exact if_pos rfl
          · intro hnot
            exact absurd rfl (hnot row)
          · intro id
            rw [(applyGone_cases h).1 id]
            simp [WireRow.id]
        | stub row =>
          obtain rfl := Except.ok.inj h
          obtain ⟨htasks, htombs⟩ := applyStub_frame page row
          constructor
          · intro id _ _
            rw [htasks]
          · intro gone heq
            cases heq
          · intro _
            exact Or.inl (by rw [htasks])
          · intro id
            rw [Companion.isTombstone, htombs]
            simp [Companion.isTombstone]
        | task row =>
          obtain rfl := Except.ok.inj h
          obtain ⟨hothers, hown⟩ := projectAt_applyLive checks ctx link page row
          constructor
          · intro id _ hid
            exact hothers id hid
          · intro gone heq
            cases heq
          · intro _
            exact Or.inr hown
          · intro id
            rw [applyLive_companion]
            simp [Companion.isTombstone]

end Ids

/-! ### The ids that a deletion draws -/

theorem commitMembership_no_placeholder {task : LocalTask} {identity : MembershipIdentity}
    {now : Instant} {memberships : List (Membership LocalPart)}
    (h : commitMembership task identity now = .ok memberships) {id text : String}
    {createdAt : Instant} {rest : LocalPart} :
    Membership.placeholder id text createdAt rest ∉ memberships := by
  unfold commitMembership at h
  dsimp only at h
  split at h
  · cases hcompletion : withTaskCompletion (upsertLinked task identity now).1 task with
    | error error =>
      rw [hcompletion] at h
      simp [Except.map] at h
    | ok completed =>
      rw [hcompletion] at h
      simp only [Except.map, Except.ok.injEq] at h
      rw [← h]
      simp
  · obtain rfl := Except.ok.inj h
    simp

theorem commitMemberships_no_placeholder {tasks : List LocalTask} {identity : MembershipIdentity}
    {now : Instant} {memberships : List (Membership LocalPart)}
    (h : commitMemberships tasks identity now = .ok memberships) {id text : String}
    {createdAt : Instant} {rest : LocalPart} :
    Membership.placeholder id text createdAt rest ∉ memberships := by
  induction tasks generalizing memberships with
  | nil =>
    obtain rfl := Except.ok.inj h
    simp
  | cons task others ih =>
    unfold commitMemberships at h
    split at h
    · rename_i first second hfirst hsecond
      obtain rfl := Except.ok.inj h
      rw [List.mem_append]
      rintro (hmem | hmem)
      · exact commitMembership_no_placeholder hfirst hmem
      · exact ih hsecond hmem
    · cases h
    · cases h

theorem placeholder_of_ensureTaskMembership {tasks : List LocalTask} {input : MembershipInput}
    {now : Instant} {drawnId : String} {memberships : List (Membership LocalPart)}
    (h : ensureTaskMembership tasks input now drawnId = .ok memberships) {id text : String}
    {createdAt : Instant} {rest : LocalPart}
    (hmem : Membership.placeholder id text createdAt rest ∈ memberships) : id = drawnId := by
  unfold ensureTaskMembership at h
  dsimp only at h
  split at h
  · cases h
  · split at h
    · cases h
    · split at h
      · cases h
      · split at h
        · exact absurd hmem (commitMembership_no_placeholder h)
        · split at h
          · exact absurd hmem (commitMemberships_no_placeholder h)
          · obtain rfl := Except.ok.inj h
            unfold placeholderFor at hmem
            simp only [List.mem_singleton, Membership.placeholder.injEq] at hmem
            exact hmem.1

/-- A placeholder of a deletion has an id that the deletion drew. -/
theorem placeholder_drawn {drawn : Drawn} {tasks : List LocalTask} {task : LocalTask}
    {memberships : List (Membership LocalPart)}
    (h : replaceLostMemberships drawn tasks task = .ok memberships) {id text : String}
    {createdAt : Instant} {rest : LocalPart}
    (hmem : Membership.placeholder id text createdAt rest ∈ memberships) :
    ∃ index, id = drawn.randomUUID task.id index := by
  unfold replaceLostMemberships at h
  cases hrun : run (replaceLost drawn task.id task.project) ⟨Table.ofList tasks, [], 0⟩
      task.rest.assignments with
  | error error =>
    rw [hrun] at h
    simp [Except.map] at h
  | ok out =>
    rw [hrun] at h
    simp only [Except.map, Except.ok.injEq] at h
    have hall := run_invariant (I := fun acc : Replacing => ∀ id text createdAt rest,
      Membership.placeholder id text createdAt rest ∈ acc.memberships →
        ∃ index, id = drawn.randomUUID task.id index) ?_ (by simp) hrun
    · exact hall id text createdAt rest (h ▸ hmem)
    · intro acc assignment next _ hacc hnext id text createdAt rest hplaced
      unfold replaceLost at hnext
      split at hnext
      · obtain rfl := Except.ok.inj hnext
        exact hacc id text createdAt rest hplaced
      · rename_i identity origin _
        cases hensure : ensureTaskMembership acc.tasks.rows ⟨task.project, origin, identity⟩
            (drawn.isoNow task.id acc.index) (drawn.randomUUID task.id acc.index) with
        | error error =>
          rw [hensure] at hnext
          simp [Except.map] at hnext
        | ok memberships =>
          rw [hensure] at hnext
          simp only [Except.map, Except.ok.injEq] at hnext
          rw [← hnext] at hplaced
          rcases List.mem_append.mp hplaced with hold | hnew
          · exact hacc id text createdAt rest hold
          · exact ⟨acc.index, placeholder_of_ensureTaskMembership hensure hnew⟩

theorem neverPlaced_of_drawn {context : LocalContext} {id : String}
    (h : ∀ taskId index, context.drawn.randomUUID taskId index ≠ id) :
    NeverPlaced context.write id := by
  intro tasks task memberships hlost text createdAt rest hmem
  obtain ⟨index, rfl⟩ := placeholder_drawn hlost hmem
  exact h task.id index rfl

/-! ### Rows that pass the decoder -/

def isHexDigit (c : Char) : Bool := ('0' ≤ c && c ≤ '9') || ('a' ≤ c && c ≤ 'f')

/-- `repo-` and 32 hexadecimal digits. -/
def isProjectKey (project : String) : Bool :=
  let chars := project.toList
  decide (chars.take 5 = "repo-".toList) && decide ((chars.drop 5).length = 32) &&
    (chars.drop 5).all isHexDigit

/-- Five groups of hexadecimal digits, joined by hyphens. -/
def isUuid (id : String) : Bool :=
  match id.toList.splitOn '-' with
  | [a, b, c, d, e] =>
    decide (a.length = 8 ∧ b.length = 4 ∧ c.length = 4 ∧ d.length = 4 ∧ e.length = 12) &&
      (a ++ b ++ c ++ d ++ e).all isHexDigit
  | _ => false

/-- The receiver's check of a row: its id, its project, and the bounds of a task row. -/
def decodeWireRow (checks : WireChecks) (row : WireRow) : Bool :=
  isUuid row.id && isProjectKey row.project &&
    match row with
    | .task row => decide (checks.rowBytes row ≤ MAX_WIRE_ROW_BYTES) && checks.validateWireTask row
    | _ => true

theorem trim_of_isProjectKey {project : String} (h : isProjectKey project = true) :
    JsStrings.trim project ≠ "" := by
  unfold isProjectKey at h
  simp only [Bool.and_eq_true, decide_eq_true_eq] at h
  obtain ⟨⟨hhead, hlength⟩, hhex⟩ := h
  have hchars : project.toList = "repo-".toList ++ project.toList.drop 5 := by
    rw [← hhead, List.take_append_drop]
  have hliteral : ∀ c ∈ "repo-".toList, JsStrings.isSpace c = false := by
    have hall : "repo-".toList.all (fun c => !JsStrings.isSpace c) = true := by decide
    intro c hc
    simpa using List.all_eq_true.mp hall c hc
  have hspace : ∀ c ∈ project.toList, JsStrings.isSpace c = false := by
    intro c hc
    rw [hchars] at hc
    rcases List.mem_append.mp hc with hc | hc
    · exact hliteral c hc
    · have hdigit := List.all_eq_true.mp hhex c hc
      unfold isHexDigit at hdigit
      simp only [Bool.or_eq_true, Bool.and_eq_true, decide_eq_true_eq, Char.le_def] at hdigit
      have hrange : 48 ≤ c.toNat ∧ c.toNat ≤ 102 := by
        rcases hdigit with ⟨hlow, hhigh⟩ | ⟨hlow, hhigh⟩
        · exact ⟨hlow, le_trans (show c.toNat ≤ 57 from hhigh) (by decide)⟩
        · exact ⟨le_trans (by decide) (show 97 ≤ c.toNat from hlow), hhigh⟩
      unfold JsStrings.isSpace
      simp
      omega
  rw [JsStrings.trim_of_no_space hspace]
  rintro rfl
  simp at hlength

/-! ### Which rows are refused -/

/-- The row is no deletion of a proactive task, nor one that loses a conversation under a
blank key. -/
def RowAccepted (context : LocalContext) (link : ApplyLink) (page : PageState LocalPart)
    (row : WireRow) : Prop :=
  ∀ gone, row = .gone gone → Reaches context.write link page row →
    ∀ task, page.tasks.get? gone.id = some task →
      task.proactive = false ∧
        KeyedMemberships context.drawn (page.tasks.delete task.id).rows task

/-- The task of the row's id, if one is held, is a task of the row's project. -/
def OwnProject {ρ : Type} (tasks : Tasks ρ) (row : WireRow) : Prop :=
  ∀ project, projectAt tasks row.id = some project → project = row.project

theorem applyRow_isOk {checks : WireChecks} (context : LocalContext) (link : ApplyLink)
    {page : PageState LocalPart} {row : WireRow} (hown : OwnProject page.tasks row)
    (hproject : JsStrings.trim row.project ≠ "") :
    (∃ next, applyRow checks context.write link page row = .ok next) ↔
      RowAccepted context link page row := by
  have hsame : ∀ held, page.tasks.get? row.id = some held → held.project = row.project := by
    intro held hheld
    apply hown
    rw [projectAt, hheld]
    rfl
  have hnot : ¬ (page.tasks.get? row.id).any (fun held => held.project ≠ row.project) := by
    cases hheld : page.tasks.get? row.id with
    | none => simp
    | some held => simp [hsame held hheld]
  unfold applyRow
  by_cases hunshared : row.project ∉ link.projects ∨ row.project ∉ context.write.linked
  · rw [if_pos hunshared]
    refine iff_of_true ⟨_, rfl⟩ ?_
    rintro gone - ⟨⟨hlink, hlinked⟩, -⟩
    rcases hunshared with h | h
    · exact absurd hlink h
    · exact absurd hlinked h
  · rw [if_neg hunshared, if_neg hnot]
    by_cases htomb : page.companion.isTombstone row.id = true
    · rw [if_pos htomb]
      refine iff_of_true ⟨_, rfl⟩ ?_
      rintro gone - ⟨-, hno⟩
      rw [htomb] at hno
      cases hno
    · rw [if_neg htomb]
      push Not at hunshared
      have hreaches : Reaches context.write link page row := ⟨hunshared, Bool.not_eq_true _ ▸ htomb⟩
      cases row with
      | task row => exact iff_of_true ⟨_, rfl⟩ (fun gone heq => by cases heq)
      | stub row => exact iff_of_true ⟨_, rfl⟩ (fun gone heq => by cases heq)
      | gone row =>
        unfold RowAccepted applyGone
        dsimp only
        cases hheld : page.tasks.get? row.id with
        | none =>
          refine iff_of_true ⟨_, rfl⟩ ?_
          intro gone heq _ task htask
          obtain rfl := WireRow.gone.inj heq
          rw [hheld] at htask
          cases htask
        | some task =>
          have hkey : JsStrings.trim task.project ≠ "" := by
            rw [hsame task hheld]
            exact hproject
          have hdelete := deleteTask_isOk context page.tasks task hkey
          have hwhole : (∃ next, deleteTask context.write page.tasks task = .ok next) ↔
              ∀ gone, WireRow.gone row = .gone gone → Reaches context.write link page (.gone row) →
                ∀ task, page.tasks.get? gone.id = some task → task.proactive = false ∧
                  KeyedMemberships context.drawn (page.tasks.delete task.id).rows task := by
            rw [hdelete]
            constructor
            · intro haccepted gone heq _ other hother
              obtain rfl := WireRow.gone.inj heq
              rw [hheld] at hother
              obtain rfl := Option.some.inj hother
              exact haccepted
            · intro hall
              exact hall row rfl hreaches task hheld
          rw [← hwhole]
          exact map_isOk

/-! ### The commit of a page -/

theorem settleTask_isOk {ρ : Type} {ctx : WriteContext ρ} {before : Tasks ρ} (task : BoardTask ρ) :
    (∃ settled, settleTask ctx before task = .ok settled) ↔
      ∃ rest, ctx.settle (before.get? task.id) task = .ok rest := by
  unfold settleTask
  exact map_isOk

theorem settleTasks_isOk {ρ : Type} {ctx : WriteContext ρ} {before : Tasks ρ}
    (tasks : List (BoardTask ρ)) :
    (∃ settled, settleTasks ctx before tasks = .ok settled) ↔
      ∀ task ∈ tasks, ∃ rest, ctx.settle (before.get? task.id) task = .ok rest := by
  induction tasks with
  | nil => exact iff_of_true ⟨[], rfl⟩ (by simp)
  | cons task others ih =>
    have hcons : (∃ settled, settleTasks ctx before (task :: others) = .ok settled) ↔
        (∃ settled, settleTask ctx before task = .ok settled) ∧
          ∃ settled, settleTasks ctx before others = .ok settled := by
      rw [settleTasks]
      cases settleTask ctx before task with
      | error error => simp
      | ok settled =>
        cases settleTasks ctx before others with
        | error error => simp
        | ok rest => simp
    rw [hcons, settleTask_isOk, List.forall_mem_cons]
    exact and_congr_right (fun _ => ih)

theorem committedRows_isOk {ρ : Type} [DecidableEq ρ] {ctx : WriteContext ρ}
    (preserved : List (String × TaskSyncGroup)) {before tasks : Tasks ρ} (companion : Companion) :
    (∃ store, committedRows ctx preserved before tasks companion = .ok store) ↔
      ∀ task ∈ tasks.rows, ∃ rest, ctx.settle (before.get? task.id) task = .ok rest := by
  rw [← settleTasks_isOk]
  unfold committedRows
  exact map_isOk

/-- The task was done already, or it is not done, or every decision of it is delivered. -/
def Completes (before : Tasks LocalPart) (task : LocalTask) : Prop :=
  ∀ prior, before.get? task.id = some prior → task.status = .done → prior.status ≠ .done →
    hasUndeliveredDecision task = false

theorem completes_of_held {before : Tasks LocalPart} {task : LocalTask} (h : task ∈ before.rows) :
    Completes before task := by
  intro prior hprior hdone hopen
  have hheld : before.get? task.id = some task := Table.get?_eq_some.mpr ⟨h, rfl⟩
  rw [hheld] at hprior
  exact absurd (Option.some.inj hprior ▸ hdone) hopen

theorem settle_isOk (context : LocalContext) (before : Tasks LocalPart) (task : LocalTask) :
    (∃ rest, context.write.settle (before.get? task.id) task = .ok rest) ↔
      Completes before task := by
  unfold Completes LocalContext.write
  dsimp only
  cases before.get? task.id with
  | none =>
    rw [withTaskCompletion_isOk]
    refine iff_of_true (fun h => h.2.1 h.1) (fun prior h => by cases h)
  | some prior =>
    rw [withTaskCompletion_isOk]
    constructor
    · intro h other hother hdone hopen
      obtain rfl := Option.some.inj hother
      exact Bool.not_eq_true _ ▸ fun hundelivered => h ⟨hdone, hopen, hundelivered⟩
    · rintro hcompletes ⟨hdone, hopen, hundelivered⟩
      have hdelivered := hcompletes prior rfl hdone hopen
      rw [hundelivered] at hdelivered
      cases hdelivered

/-- A row after which no change is counted left the tasks. -/
theorem applyRow_idle {ρ : Type} [DecidableEq ρ] [Inhabited ρ] {checks : WireChecks}
    {ctx : WriteContext ρ} {link : ApplyLink} {page page' : PageState ρ} {row : WireRow}
    (h : applyRow checks ctx link page row = .ok page') (hzero : page'.count = 0) :
    page.count = 0 ∧ page'.tasks = page.tasks := by
  unfold applyRow at h
  split at h
  · obtain rfl := Except.ok.inj h
    exact ⟨hzero, rfl⟩
  · split at h
    · cases h
    · split at h
      · obtain rfl := Except.ok.inj h
        exact ⟨hzero, rfl⟩
      · cases row with
        | task row =>
          obtain rfl := Except.ok.inj h
          exact applyLive_idle hzero
        | stub row =>
          obtain rfl := Except.ok.inj h
          have hcount : (applyStub page row).count = page.count := by
            unfold applyStub
            dsimp only
            split <;> rfl
          exact ⟨hcount ▸ hzero, (applyStub_frame page row).1⟩
        | gone row =>
          exfalso
          unfold applyGone at h
          dsimp only at h
          split at h
          · obtain rfl := Except.ok.inj h
            simp at hzero
          · rename_i task _
            cases hdelete : deleteTask ctx page.tasks task with
            | error error =>
              rw [hdelete] at h
              simp [Except.map] at h
            | ok tasks =>
              rw [hdelete] at h
              simp only [Except.map, Except.ok.injEq] at h
              rw [← h] at hzero
              simp at hzero

/-! ### Whole pages -/

theorem applyRows_eq_run {ρ : Type} [DecidableEq ρ] [Inhabited ρ] (checks : WireChecks)
    (ctx : WriteContext ρ) (link : ApplyLink) (page : PageState ρ) (rows : List WireRow) :
    applyRows checks ctx link page rows = run (applyRow checks ctx link) page rows := by
  induction rows generalizing page with
  | nil => rfl
  | cons row rest ih =>
    rw [applyRows, run]
    cases applyRow checks ctx link page row with
    | ok next => exact ih next
    | error error => rfl

/-- The ids of the page belong to no task of another project, and the page itself names
none of them under two. -/
structure OwnIds {ρ : Type} (tasks : Tasks ρ) (rows : List WireRow) : Prop where
  held : ∀ row ∈ rows, OwnProject tasks row
  named : ∀ row ∈ rows, ∀ other ∈ rows, row.id = other.id → row.project = other.project

section Page

variable {ρ : Type} [DecidableEq ρ] [Inhabited ρ] {checks : WireChecks} {ctx : WriteContext ρ}
  {link : ApplyLink} {rows : List WireRow} {page page' : PageState ρ} {row : WireRow}

/-- A row keeps every id of the page with its project. -/
theorem ownProject_applyRow (hplaced : ∀ row ∈ rows, NeverPlaced ctx row.id)
    (hnamed : ∀ row ∈ rows, ∀ other ∈ rows, row.id = other.id → row.project = other.project)
    (hrow : row ∈ rows) (hown : ∀ other ∈ rows, OwnProject page.tasks other)
    (h : applyRow checks ctx link page row = .ok page') :
    ∀ other ∈ rows, OwnProject page'.tasks other := by
  intro other hother project hproject
  rcases applyRow_ok h with ⟨-, rfl⟩ | ⟨-, heffect⟩
  · exact hown other hother project hproject
  · by_cases hid : other.id = row.id
    · have hsame := hnamed other hother row hrow hid
      rw [hid] at hproject
      by_cases hgone : ∃ gone, row = .gone gone
      · obtain ⟨gone, hgone⟩ := hgone
        rw [heffect.gone gone hgone (hplaced row hrow)] at hproject
        cases hproject
      · push Not at hgone
        rcases heffect.held hgone with hkept | harrived
        · rw [hkept] at hproject
          rw [hsame]
          exact hown row hrow project hproject
        · rw [harrived] at hproject
          rw [hsame, ← Option.some.inj hproject]
          cases hheld : projectAt page.tasks row.id with
          | none => rfl
          | some held => exact hown row hrow held hheld
    · rw [heffect.elsewhere other.id (hplaced other hother) hid] at hproject
      exact hown other hother project hproject

/-- Under its tombstone an id stays as it is. -/
theorem under_tombstone {id : String} (hplaced : NeverPlaced ctx id)
    (htomb : page.companion.isTombstone id = true)
    (h : run (applyRow checks ctx link) page rows = .ok page') :
    page'.companion.isTombstone id = true ∧ projectAt page'.tasks id = projectAt page.tasks id := by
  refine run_invariant (I := fun mid : PageState ρ => mid.companion.isTombstone id = true ∧
    projectAt mid.tasks id = projectAt page.tasks id) ?_ ⟨htomb, rfl⟩ h
  rintro mid row next - ⟨hmid, hsame⟩ hnext
  rcases applyRow_ok hnext with ⟨-, rfl⟩ | ⟨⟨-, hno⟩, heffect⟩
  · exact ⟨hmid, hsame⟩
  · have hid : id ≠ row.id := by
      rintro rfl
      rw [hmid] at hno
      cases hno
    exact ⟨(heffect.tombstones id).mpr (Or.inr hmid), (heffect.elsewhere id hplaced hid).trans hsame⟩

omit [DecidableEq ρ] [Inhabited ρ] in
/-- A deletion row finds no task beside the tombstone of its id. -/
def NotBeside (ctx : WriteContext ρ) (link : ApplyLink) (page : PageState ρ) (row : WireRow) :
    Prop :=
  ∀ gone, row = .gone gone → SharedHere ctx link gone.project →
    page.companion.isTombstone gone.id = true → page.tasks.get? gone.id = none

/-- **What an applied page leaves undeleted** is what stood beside its tombstone. -/
theorem buried_iff_notBeside (hplaced : ∀ row ∈ rows, NeverPlaced ctx row.id)
    (hown : OwnIds page.tasks rows) (h : run (applyRow checks ctx link) page rows = .ok page') :
    (∀ gone, .gone gone ∈ rows → ∀ project, projectAt page'.tasks gone.id = some project →
        ¬ SharedHere ctx link project) ↔
      Accepted (applyRow checks ctx link) (NotBeside ctx link) page rows := by
  -- every prefix of the page keeps its ids with their projects
  have hkeeps : ∀ pre, (∀ row ∈ pre, row ∈ rows) → ∀ mid,
      run (applyRow checks ctx link) page pre = .ok mid → ∀ row ∈ rows, OwnProject mid.tasks row := by
    intro pre hpre mid hmid
    exact run_invariant (I := fun mid : PageState ρ => ∀ row ∈ rows, OwnProject mid.tasks row)
      (fun _ row _ hrow hI hnext => ownProject_applyRow hplaced hown.named (hpre row hrow) hI hnext)
      hown.held hmid
  constructor
  · rintro hburied pre row post hsplit mid hmid gone rfl hshared htomb
    have hmem : WireRow.gone gone ∈ rows := by simp [hsplit]
    have hrest : run (applyRow checks ctx link) mid (.gone gone :: post) = .ok page' := by
      rw [hsplit] at h
      obtain ⟨other, hother, hrest⟩ := run_append_ok.mp h
      exact Except.ok.inj (hmid.symm.trans hother) ▸ hrest
    by_contra hheld
    obtain ⟨task, htask⟩ := Option.ne_none_iff_exists'.mp hheld
    have hproject : projectAt mid.tasks gone.id = some task.project := by
      rw [projectAt, htask]
      rfl
    have hsame := hkeeps pre (fun row hrow => by simp [hsplit, hrow]) mid hmid _ hmem
      task.project hproject
    have hend := (under_tombstone (hplaced _ hmem) htomb hrest).2
    refine hburied gone hmem task.project (hend.trans hproject) ?_
    rw [hsame]
    exact hshared
  · intro hall gone hmem project hproject hshared
    have hsame := hkeeps rows (fun _ hrow => hrow) page' h _ hmem project hproject
    obtain ⟨pre, post, hsplit⟩ := List.append_of_mem hmem
    rw [hsplit] at h
    obtain ⟨mid, hmid, hrest⟩ := run_append_ok.mp h
    rw [hsame] at hshared
    have hnot := hall pre (.gone gone) post hsplit mid hmid gone rfl hshared
    have hplace := hplaced _ hmem
    by_cases htomb : mid.companion.isTombstone gone.id = true
    · have hend := (under_tombstone hplace htomb hrest).2
      have hend' : projectAt page'.tasks gone.id = none := by
        rw [show gone.id = (WireRow.gone gone).id from rfl, hend, projectAt]
        exact congrArg (Option.map BoardTask.project) (hnot htomb)
      rw [hend'] at hproject
      cases hproject
    · obtain ⟨next, hnext, hpost⟩ := run_cons_ok.mp hrest
      rcases applyRow_ok hnext with ⟨hdropped, -⟩ | ⟨-, heffect⟩
      · exact hdropped ⟨hshared, Bool.not_eq_true _ ▸ htomb⟩
      · have htombed := (heffect.tombstones gone.id).mpr (Or.inl ⟨⟨gone, rfl⟩, rfl⟩)
        have hend := (under_tombstone hplace htombed hpost).2
        have habsent := heffect.gone gone rfl hplace
        have hend' : projectAt page'.tasks gone.id = none :=
          (show projectAt page'.tasks (WireRow.gone gone).id = _ from hend).trans habsent
        rw [hend'] at hproject
        cases hproject

end Page

/-- A committed write leaves every id with its project. -/
theorem projectAt_committedRows {ρ : Type} [DecidableEq ρ] {ctx : WriteContext ρ}
    {preserved : List (String × TaskSyncGroup)} {before tasks : Tasks ρ} {companion : Companion}
    {store : TaskStore ρ} (h : committedRows ctx preserved before tasks companion = .ok store)
    (id : String) : projectAt store.tasks id = projectAt tasks id := by
  have hrel := get?_committedRows h id
  unfold projectAt
  generalize tasks.get? id = a, store.tasks.get? id = b at hrel
  cases hrel with
  | none => rfl
  | some hrow =>
    obtain ⟨settled, hsettled, hstamp⟩ := hrow
    exact congrArg some (hstamp.project_eq.trans (hsettled.reads .text).2.2.2.1)

/-- A page that counts no change leaves the tasks. -/
theorem tasks_of_idle {ρ : Type} [DecidableEq ρ] [Inhabited ρ] {checks : WireChecks}
    {ctx : WriteContext ρ} {link : ApplyLink} {store : TaskStore ρ} {rows : List WireRow}
    {page : PageState ρ} (h : applyRows checks ctx link (pageStart store) rows = .ok page)
    (hzero : page.count = 0) : page.tasks = store.tasks := by
  rw [applyRows_eq_run] at h
  have hall := run_invariant (I := fun page : PageState ρ => page.count = 0 → page.tasks = store.tasks)
    ?_ (fun _ => rfl) h
  · exact hall hzero
  · intro mid row next _ hmid hnext hnextZero
    obtain ⟨hmidZero, htasks⟩ := applyRow_idle hnext hnextZero
    rw [htasks, hmid hmidZero]

/-- The page is accepted: none of its deletion rows is refused or finds its task beside a
tombstone, and no task that the page leaves done was open with an undelivered decision. -/
structure PageAccepted (checks : WireChecks) (context : LocalContext) (link : ApplyLink)
    (store : TaskStore LocalPart) (rows : List WireRow) : Prop where
  each : Accepted (applyRow checks context.write link) (RowAccepted context link)
    (pageStart store) rows
  beside : Accepted (applyRow checks context.write link) (NotBeside context.write link)
    (pageStart store) rows
  commit : ∀ page, applyRows checks context.write link (pageStart store) rows = .ok page →
    ∀ task ∈ page.tasks.rows, Completes store.tasks task

/-- **A page is applied exactly when it is accepted.**  Rows that pass the decoder, whose
ids belong to no task of another project, within the clock and the quota: the apply returns
and leaves no task of a shared project under an id that the page buried, unless a deletion
row names a proactive task, loses a conversation under a blank key, or finds its task beside
a tombstone, or the page makes a task done whose decision is undelivered. -/
theorem page_never_wedges_iff (checks : WireChecks) (context : LocalContext) (link : ApplyLink)
    (now : Int) (install : Install LocalPart) (rows : List WireRow)
    (hdecode : ∀ row ∈ rows, decodeWireRow checks row = true)
    (hown : OwnIds install.store.tasks rows)
    (hdrawn : ∀ row ∈ rows, ∀ taskId index, context.drawn.randomUUID taskId index ≠ row.id)
    (hclock : clockAhead now rows = false)
    (hquota : budgetUsed install.budgets link.key (utcDay now) < DAILY_ROW_BUDGET) :
    (∃ install' outcome,
        applyTaskRows checks context.write link now install rows = .ok (install', outcome) ∧
        ∀ gone, .gone gone ∈ rows → ∀ task, install'.store.tasks.get? gone.id = some task →
          ¬ SharedHere context.write link task.project) ↔
      PageAccepted checks context link install.store rows := by
  have hplaced : ∀ row ∈ rows, NeverPlaced context.write row.id :=
    fun row hrow => neverPlaced_of_drawn (hdrawn row hrow)
  have hkey : ∀ row ∈ rows, JsStrings.trim row.project ≠ "" := by
    intro row hrow
    have hrowOk := hdecode row hrow
    unfold decodeWireRow at hrowOk
    simp only [Bool.and_eq_true] at hrowOk
    exact trim_of_isProjectKey hrowOk.1.2
  -- the rows are applied exactly when each of them is accepted
  have hrows : (∃ page, applyRows checks context.write link (pageStart install.store) rows = .ok page) ↔
      Accepted (applyRow checks context.write link) (RowAccepted context link)
        (pageStart install.store) rows := by
    simp only [applyRows_eq_run]
    refine run_isOk_iff (I := fun page : PageState LocalPart =>
      ∀ row ∈ rows, OwnProject page.tasks row) ?_ ?_ hown.held
    · intro page row next hrow hI hnext
      exact ownProject_applyRow hplaced hown.named hrow hI hnext
    · intro page row hrow hI
      exact applyRow_isOk context link (hI row hrow) (hkey row hrow)
  -- what an applied page leaves in the store
  have hburied : ∀ page, applyRows checks context.write link (pageStart install.store) rows = .ok page →
      ∀ store : TaskStore LocalPart,
        (∀ id, projectAt store.tasks id = projectAt page.tasks id) →
        ((∀ gone, .gone gone ∈ rows → ∀ task, store.tasks.get? gone.id = some task →
            ¬ SharedHere context.write link task.project) ↔
          Accepted (applyRow checks context.write link) (NotBeside context.write link)
            (pageStart install.store) rows) := by
    intro page hpage store hstore
    rw [applyRows_eq_run] at hpage
    rw [← buried_iff_notBeside hplaced hown hpage]
    constructor
    · intro hall gone hmem project hproject
      rw [← hstore, projectAt] at hproject
      obtain ⟨task, htask, rfl⟩ := Option.map_eq_some_iff.mp hproject
      exact hall gone hmem task htask
    · intro hall gone hmem task htask
      apply hall gone hmem
      rw [← hstore, projectAt, htask]
      rfl
  by_cases hempty : rows = []
  · subst hempty
    refine iff_of_true ⟨install, ⟨0, none⟩, rfl, by simp⟩ ⟨accepted_nil _, accepted_nil _, ?_⟩
    intro page hpage task htask
    obtain rfl := Except.ok.inj hpage
    exact completes_of_held htask
  · have happly : applyTaskRows checks context.write link now install rows =
        (mutateLinkedTasks context.write install.store (applyPage checks context.write link rows)).map
          (fun written => (⟨written.1, install.budgets.set ⟨link.key, utcDay now,
            budgetUsed install.budgets link.key (utcDay now) + written.2⟩⟩, ⟨written.2, none⟩)) := by
      unfold applyTaskRows
      rw [if_neg hempty, if_neg (by simp [hclock]), if_neg (not_le.mpr hquota)]
    simp only [happly]
    constructor
    · rintro ⟨install', outcome, hwritten, hgone⟩
      obtain ⟨⟨store, count⟩, hmutate, hinstall⟩ := map_eq_ok.mp hwritten
      obtain ⟨rfl, -⟩ := Prod.mk.inj hinstall
      obtain ⟨mutation, hmutation, hcases⟩ := mutateLinkedTasks_ok hmutate
      obtain ⟨page, hpage, rfl⟩ := map_eq_ok.mp hmutation
      dsimp only at hcases
      refine ⟨hrows.mp ⟨page, hpage⟩, ?_, ?_⟩
      · apply (hburied page hpage store ?_).mp hgone
        rcases hcases with ⟨hnone, hstore⟩ | ⟨tasks, hsome, hcommit⟩
        · intro id
          rw [hstore, tasks_of_idle hpage (by simpa using hnone)]
        · have htasks : page.tasks = tasks := by
            by_cases hzero : page.count = 0
            · simp [hzero] at hsome
            · simpa [hzero] using hsome
          exact projectAt_committedRows (htasks ▸ hcommit)
      · intro other hother
        obtain rfl := Except.ok.inj (hpage.symm.trans hother)
        rcases hcases with ⟨hnone, -⟩ | ⟨tasks, hsome, hcommit⟩
        · intro task htask
          rw [tasks_of_idle hpage (by simpa using hnone)] at htask
          exact completes_of_held htask
        · have htasks : page.tasks = tasks := by
            by_cases hzero : page.count = 0
            · simp [hzero] at hsome
            · simpa [hzero] using hsome
          intro task htask
          rw [← settle_isOk context]
          exact (committedRows_isOk _ _).mp ⟨store, hcommit⟩ task (htasks ▸ htask)
    · intro haccepted
      obtain ⟨page, hpage⟩ := hrows.mpr haccepted.each
      have hpageRun : applyPage checks context.write link rows install.store =
          .ok ⟨if page.count = 0 then none else some page.tasks, page.companion, page.preserved,
            page.count⟩ := by
        unfold applyPage
        unfold pageStart at hpage
        rw [hpage]
        rfl
      by_cases hzero : page.count = 0
      · have hmutate : mutateLinkedTasks context.write install.store
            (applyPage checks context.write link rows) =
              .ok (⟨install.store.tasks, page.companion⟩, page.count) := by
          unfold mutateLinkedTasks
          rw [hpageRun]
          simp [hzero]
        refine ⟨_, _, map_eq_ok.mpr ⟨_, hmutate, rfl⟩, ?_⟩
        apply (hburied page hpage _ ?_).mpr haccepted.beside
        intro id
        rw [tasks_of_idle hpage hzero]
      · have hcommits : ∃ store, committedRows context.write page.preserved install.store.tasks
            page.tasks page.companion = .ok store := by
          apply (committedRows_isOk _ _).mpr
          intro task htask
          exact (settle_isOk context install.store.tasks task).mpr
            (haccepted.commit page hpage task htask)
        obtain ⟨store, hcommit⟩ := hcommits
        have hmutate : mutateLinkedTasks context.write install.store
            (applyPage checks context.write link rows) = .ok (store, page.count) := by
          unfold mutateLinkedTasks
          rw [hpageRun]
          simp [hzero, hcommit, Except.map]
        refine ⟨_, _, map_eq_ok.mpr ⟨_, hmutate, rfl⟩, ?_⟩
        exact (hburied page hpage store (projectAt_committedRows hcommit)).mpr haccepted.beside

/-! ### Two pages that wedge a link -/

section Wedged

/-- An install that shares `sharedProject`. -/
def receiving (now : Int) : LocalContext where
  linked := [sharedProject]
  self := ⟨"aaaaaaaa-0000-4000-8000-000000000000", "aaaaaaaa"⟩
  now := fun _ => now
  drawn :=
    { isoNow := fun _ _ => ⟨"1970-01-01T00:00:05.000Z", some 5000⟩
      randomUUID := fun _ _ => "22222222-2222-4222-8222-222222222222" }
  showsOnBoard := fun _ => true

/-- A task of the shared project as this install holds it. -/
def heldTask (proactive : Bool) (local_ : LocalPart) : LocalTask where
  id := sharedTaskId
  project := sharedProject
  status := .assigned
  text := "Layout"
  details := none
  chosen := true
  color := none
  icon := none
  priority := none
  placement := .unplaced
  pos := none
  workLinks := none
  machine := some "aaaaaaaa-0000-4000-8000-000000000000"
  handover := none
  ownReview := none
  prototypeReviewReplica := none
  board := none
  boardAutoHidden := false
  boardChoice := false
  findingKey := none
  proactive := proactive
  createdAt := ⟨"1970-01-01T00:00:01.000Z", some 1000⟩
  updatedAt := ⟨"1970-01-01T00:00:01.000Z", some 1000⟩
  sync := none
  rest := local_

def holding (task : LocalTask) : Install LocalPart :=
  ⟨⟨Table.empty.set task, emptyCompanion⟩, Table.empty⟩

/-- The peer's deletion of the task. -/
def taskGone : WireGone := ⟨sharedTaskId, sharedProject, ⟨2000, 0, "bbbbbbbb"⟩⟩

/-- The task as the peer moved it to done. -/
def taskDone : WireTask where
  id := sharedTaskId
  project := sharedProject
  text := "Layout"
  details := none
  status := .done
  board := none
  color := none
  icon := none
  priority := none
  placement := .unplaced
  pos := none
  workLinks := none
  machine := "aaaaaaaa-0000-4000-8000-000000000000"
  handover := none
  createdAt := ⟨"1970-01-01T00:00:01.000Z", some 1000⟩
  updatedAt := ⟨"1970-01-01T00:00:02.000Z", some 2000⟩
  s := fun group => if group = .status then ⟨2000, 0, "bbbbbbbb"⟩ else ⟨1000, 0, "aaaaaaaa"⟩
  prototypeReviewReplica := none

/-- A decided round whose message did not reach the seat yet. -/
def undelivered : LocalPart := { (default : LocalPart) with decisions := [some ⟨.pending, false⟩] }

/-- The refusal with this text, where the rest of the answer need not be compared. -/
theorem eq_error_of {α : Type*} {result : Except String α} {text : String}
    (h : (match result with | .error found => decide (found = text) | .ok _ => false) = true) :
    result = .error text := by
  cases result with
  | error found => rw [of_decide_eq_true h]
  | ok _ => exact nomatch h

/-- **Two well-formed pages that throw.**  A deletion of a proactive task, and a task moved
to done by the peer while a decision of it is undelivered here. -/
theorem page_wedged :
    (decodeWireRow anyRow (.gone taskGone) = true ∧
        decodeWireRow anyRow (.task taskDone) = true) ∧
      (clockAhead 3000 [.gone taskGone] = false ∧ clockAhead 3000 [.task taskDone] = false) ∧
      (OwnIds (holding (heldTask true default)).store.tasks [.gone taskGone] ∧
        OwnIds (holding (heldTask false undelivered)).store.tasks [.task taskDone]) ∧
      applyTaskRows anyRow (receiving 3000).write peerLink 3000 (holding (heldTask true default))
          [.gone taskGone] =
        .error "invented work retains its provenance; hide or reject it instead" ∧
      applyTaskRows anyRow (receiving 3000).write peerLink 3000
          (holding (heldTask false undelivered)) [.task taskDone] =
        .error "task has an undelivered decided round; verify delivery before completing it" := by
  refine ⟨⟨by decide +kernel, by decide +kernel⟩, ⟨by decide, by decide⟩, ⟨⟨?_, ?_⟩, ⟨?_, ?_⟩⟩,
    eq_error_of (by decide +kernel), eq_error_of (by decide +kernel)⟩
  · intro row hrow project hproject
    obtain rfl := List.mem_singleton.mp hrow
    exact (Option.some.inj hproject).symm
  · intro row hrow other hother _
    rw [List.mem_singleton.mp hrow, List.mem_singleton.mp hother]
  · intro row hrow project hproject
    obtain rfl := List.mem_singleton.mp hrow
    exact (Option.some.inj hproject).symm
  · intro row hrow other hother _
    rw [List.mem_singleton.mp hrow, List.mem_singleton.mp hother]

/-- A conversation that only the deleted task records. -/
def soleMember : LocalPart :=
  { (default : LocalPart) with
    assignments := [⟨none, some "launch-1", none, none, some "conversation-1", none, .linked, none,
      ⟨"1970-01-01T00:00:01.000Z", some 1000⟩, none, none⟩] }

/-- The deletion of an ordinary task is accepted: its conversation gets a placeholder. -/
theorem page_never_wedges_iff_ordinary :
    PageAccepted anyRow (receiving 3000) peerLink (holding (heldTask false soleMember)).store
      [.gone taskGone] := by
  refine (page_never_wedges_iff anyRow (receiving 3000) peerLink 3000
    (holding (heldTask false soleMember)) [.gone taskGone] ?_ ⟨?_, ?_⟩ ?_ ?_ ?_).mp
      ⟨_, _, rfl, ?_⟩
  · intro row hrow
    rw [List.mem_singleton.mp hrow]
    decide +kernel
  · intro row hrow project hproject
    obtain rfl := List.mem_singleton.mp hrow
    exact (Option.some.inj hproject).symm
  · intro row hrow other hother _
    rw [List.mem_singleton.mp hrow, List.mem_singleton.mp hother]
  · intro row hrow taskId index
    rw [List.mem_singleton.mp hrow]
    exact (by decide : "22222222-2222-4222-8222-222222222222" ≠ sharedTaskId)
  · decide
  · decide
  · intro gone hgone task htask
    obtain rfl := WireRow.gone.inj (List.mem_singleton.mp hgone)
    cases htask

end Wedged

end Delegatus.LinkedBoards
