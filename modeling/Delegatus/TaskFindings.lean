import Delegatus.TaskCommands
import Delegatus.LinkedRefusals
import Delegatus.LinkedMergeSteps
import Delegatus.SingleHolders
import Delegatus.Runs

/-!
# One open task for each finding

An open task holds the finding key that it has in its project (`openFinding`), and no other open task holds
it (`OneOpen`).  A task comes to hold a key in three ways: it is created with the key, a patch edits its key
or its status, or a peer reopens it.  Each looks for another holder first, in the list as it is then.
Everything else leaves each row's key, or adds rows without one.
-/

namespace Delegatus.TaskCommands

open LinkedBoards SingleHolders

variable {ρ : Type}

/-- The finding that an open task holds. -/
def openFinding (task : BoardTask ρ) : Option (String × String) :=
  if task.status = .done then none else task.findingKey.map fun key => (task.project, key)

/-- No finding has two open tasks. -/
def OneOpen (tasks : List (BoardTask ρ)) : Prop := OneHolder BoardTask.id openFinding tasks

theorem openFinding_eq_some {task : BoardTask ρ} {project key : String} :
    openFinding task = some (project, key) ↔
      task.project = project ∧ task.findingKey = some key ∧ task.status ≠ .done := by
  unfold openFinding
  split
  · next hdone => simp [hdone]
  · next hopen =>
    rw [Option.map_eq_some_iff]
    constructor
    · rintro ⟨own, hown, hsame⟩
      obtain ⟨rfl, rfl⟩ := Prod.mk.inj hsame
      exact ⟨rfl, hown, hopen⟩
    · rintro ⟨rfl, hown, -⟩
      exact ⟨key, hown, rfl⟩

/-- What a finding sees of a row. -/
structure Alike (task row : BoardTask ρ) : Prop where
  id : row.id = task.id
  project : row.project = task.project
  findingKey : row.findingKey = task.findingKey
  status : row.status = .done ↔ task.status = .done

theorem Alike.refl (task : BoardTask ρ) : Alike task task := ⟨rfl, rfl, rfl, Iff.rfl⟩

theorem Alike.openFinding {task row : BoardTask ρ} (h : Alike task row) :
    TaskCommands.openFinding row = TaskCommands.openFinding task := by
  unfold TaskCommands.openFinding
  simp only [h.project, h.findingKey, h.status]

/-- Rows that are alike, without the rows that hold nothing. -/
theorem OneOpen.of_alike {tasks rows : List (BoardTask ρ)} (h : OneOpen tasks)
    (halike : ∀ row ∈ rows, row.findingKey = none ∨ ∃ task ∈ tasks, Alike task row) : OneOpen rows := by
  apply OneHolder.of_held h
  intro row hrow
  rcases halike row hrow with hnone | ⟨task, htask, hsame⟩
  · left
    unfold openFinding
    rw [hnone, Option.map_none, ite_self]
  · exact Or.inr ⟨task, htask, hsame.id.symm, hsame.openFinding.symm⟩

theorem OneOpen.sublist {tasks rows : List (BoardTask ρ)} (h : OneOpen tasks)
    (hmem : ∀ row ∈ rows, row ∈ tasks) : OneOpen rows :=
  h.of_alike fun row hrow => Or.inr ⟨row, hmem row hrow, Alike.refl row⟩

/-- A row is put whose finding no other row holds. -/
theorem OneOpen.put {tasks rows : List (BoardTask ρ)} (h : OneOpen tasks) {task : BoardTask ρ}
    (hmem : ∀ row ∈ rows, row ∈ tasks ∨ row = task)
    (hfree : ∀ key, task.findingKey = some key → task.status ≠ .done → ∀ row ∈ tasks, row.id ≠ task.id →
      row.project = task.project → row.status ≠ .done → row.findingKey ≠ some key) : OneOpen rows := by
  apply OneHolder.replace h hmem
  rintro row hrow hne ⟨project, key⟩ htask hheld
  obtain ⟨rfl, hkey, hopen⟩ := openFinding_eq_some.mp htask
  obtain ⟨hproject, hheldKey, hheldOpen⟩ := openFinding_eq_some.mp hheld
  exact hfree key hkey hopen row hrow hne hproject hheldOpen hheldKey

/-! ### Commits -/

section Store

variable [DecidableEq ρ]

omit [DecidableEq ρ] in
theorem alike_of_committed {ctx : WriteContext ρ} {preserved : List (String × TaskSyncGroup)}
    {before : Tasks ρ} {companion : Companion} {task row : BoardTask ρ}
    (h : Committed ctx preserved before companion task row) : Alike task row := by
  obtain ⟨settled, ⟨rest, proactive, rfl⟩, hrow⟩ := h
  cases hrow with
  | untouched _ => exact ⟨rfl, rfl, rfl, Iff.rfl⟩
  | stamped _ _ _ _ => exact ⟨rfl, rfl, rfl, Iff.rfl⟩

theorem OneOpen.commit {ctx : WriteContext ρ} {preserved : List (String × TaskSyncGroup)}
    {before tasks : Tasks ρ} {companion : Companion} {store : TaskStore ρ} (h : OneOpen tasks.rows)
    (hcommit : committedRows ctx preserved before tasks companion = .ok store) :
    OneOpen store.tasks.rows := by
  have hrows := (committedRows_ok hcommit).1
  apply h.of_alike
  intro row hrow
  obtain ⟨index, hindex, hget⟩ := List.getElem_of_mem hrow
  have hlength := hrows.length_eq
  have hcommitted := (List.forall₂_iff_get.mp hrows).2 index (by omega) hindex
  refine Or.inr ⟨tasks.rows[index], List.getElem_mem _, ?_⟩
  rw [← hget]
  exact alike_of_committed hcommitted

/-! ### Rows of a peer -/

section Peers

variable [Inhabited ρ] {ctx : WriteContext ρ} {link : ApplyLink}

omit [DecidableEq ρ] [Inhabited ρ] in
theorem OneOpen.bindMembership {tasks : Tasks ρ} (h : OneOpen tasks.rows) (project : String)
    (membership : Membership ρ) : OneOpen (LinkedBoards.bindMembership project tasks membership).rows := by
  cases membership with
  | upsertLinked id added updatedAt rest =>
    apply h.of_alike
    intro row hrow
    rw [LinkedBoards.bindMembership, Table.rows_modify, List.mem_map] at hrow
    obtain ⟨task, htask, rfl⟩ := hrow
    refine Or.inr ⟨task, htask, ?_⟩
    split
    · refine ⟨rfl, rfl, rfl, ?_⟩
      dsimp only
      split
      · next hinbox => simp [hinbox.2]
      · exact Iff.rfl
    · exact Alike.refl task
  | placeholder id text createdAt rest =>
    apply h.of_alike
    intro row hrow
    rw [LinkedBoards.bindMembership, Table.mem_set] at hrow
    rcases hrow with rfl | ⟨hold, -⟩
    · exact Or.inl rfl
    · exact Or.inr ⟨row, hold, Alike.refl row⟩

omit [DecidableEq ρ] [Inhabited ρ] in
theorem OneOpen.bindMemberships {tasks : Tasks ρ} (h : OneOpen tasks.rows) (project : String)
    (memberships : List (Membership ρ)) :
    OneOpen (memberships.foldl (LinkedBoards.bindMembership project) tasks).rows := by
  induction memberships generalizing tasks with
  | nil => exact h
  | cons membership rest ih => exact ih (h.bindMembership project membership)

omit [DecidableEq ρ] [Inhabited ρ] in
theorem OneOpen.deleteTask {tasks out : Tasks ρ} (h : OneOpen tasks.rows) {task : BoardTask ρ}
    (hdelete : LinkedBoards.deleteTask ctx tasks task = .ok out) : OneOpen out.rows := by
  unfold LinkedBoards.deleteTask at hdelete
  split at hdelete
  · exact nomatch hdelete
  · obtain ⟨memberships, -, rfl⟩ := Refusals.map_eq_ok.mp hdelete
    apply OneOpen.bindMemberships
    apply h.sublist
    intro row hrow
    exact (Table.mem_delete.mp hrow).1

/-- A merge opens a copy only where no other open task holds its finding. -/
def Opens (tasks : List (BoardTask ρ)) (held merged : BoardTask ρ) : Prop :=
  reopenConflict tasks held = true → merged.status = held.status ∨ merged.status = .done

omit [DecidableEq ρ] [Inhabited ρ] in
theorem Opens.mergeGroup {tasks : List (BoardTask ρ)} {held : BoardTask ρ} {acc : Merging ρ}
    (h : Opens tasks held acc.merged) (row : WireTask) (group : TaskSyncGroup) :
    Opens tasks held (LinkedBoards.mergeGroup ctx link tasks held row acc group).merged := by
  intro hconflict
  have hheld := h hconflict
  unfold LinkedBoards.mergeGroup
  dsimp only
  split_ifs with hkept howner hasked hreopens hrestores
  · exact hheld
  · exact hheld
  · exact hheld
  · exact hheld
  · exact hheld
  · cases group with
    | status =>
      right
      by_contra hopen
      exact hreopens ⟨rfl, hopen, hconflict⟩
    | text => exact hheld
    | look => exact hheld
    | place => exact hheld
    | links => exact hheld
    | machine => exact hheld
    | handover => exact hheld

omit [DecidableEq ρ] [Inhabited ρ] in
theorem opens_mergeGroups (tasks : List (BoardTask ρ)) (held : BoardTask ρ) (row : WireTask) :
    Opens tasks held (mergeGroups ctx link tasks held row).merged := by
  have hfold : ∀ (groups : List TaskSyncGroup) (acc : Merging ρ), Opens tasks held acc.merged →
      Opens tasks held (groups.foldl (LinkedBoards.mergeGroup ctx link tasks held row) acc).merged := by
    intro groups
    induction groups with
    | nil => exact fun acc h => h
    | cons group rest ih => exact fun acc h => ih _ (h.mergeGroup row group)
  apply hfold
  intro _
  unfold boardFilled
  split
  · exact Or.inl rfl
  · exact Or.inl rfl

omit [DecidableEq ρ] [Inhabited ρ] in
theorem opens_mergeHeld {checks : WireChecks} {tasks : List (BoardTask ρ)} {held merged : BoardTask ρ}
    {row : WireTask} {preserved : List (String × TaskSyncGroup)}
    (h : mergeHeld checks ctx link tasks held row = some (merged, preserved)) :
    Opens tasks held merged ∧ merged.id = held.id ∧ merged.project = held.project ∧
      merged.findingKey = held.findingKey := by
  have hmerge := (mergeHeld_spec h).1
  have hopens : Opens tasks held (mergeGroups ctx link tasks held row).merged := opens_mergeGroups tasks held row
  refine ⟨?_, hmerge.id, hmerge.project, hmerge.findingKey⟩
  unfold mergeHeld at h
  dsimp only at h
  split at h
  · obtain ⟨rfl, -⟩ := Prod.mk.inj (Option.some.inj h)
    exact hopens
  · split at h
    · obtain ⟨rfl, -⟩ := Prod.mk.inj (Option.some.inj h)
      exact hopens
    · exact nomatch h

omit [DecidableEq ρ] [Inhabited ρ] in
theorem alike_admitToBoard (tasks : List (BoardTask ρ)) (held : Option (BoardTask ρ)) (merged : BoardTask ρ) :
    Alike merged (admitToBoard ctx tasks held merged) := by
  unfold admitToBoard
  split
  · exact ⟨rfl, rfl, rfl, Iff.rfl⟩
  · exact Alike.refl merged

omit [DecidableEq ρ] in
theorem findingKey_arrived (checks : WireChecks) (self : Self) (row : WireTask) :
    (arrivalBoard row (arrivedTask (ρ := ρ) checks self link row)).findingKey = none := by
  rfl

theorem OneOpen.applyLive {checks : WireChecks} {page : PageState ρ} (h : OneOpen page.tasks.rows)
    (row : WireTask) : OneOpen (LinkedBoards.applyLive checks ctx link page row).tasks.rows := by
  unfold LinkedBoards.applyLive
  dsimp only
  cases hget : page.tasks.get? row.id with
  | none =>
    dsimp only
    apply h.of_alike
    intro other hother
    rcases Table.mem_set.mp hother with rfl | ⟨hold, -⟩
    · left
      rw [(alike_admitToBoard _ _ _).findingKey]
      exact findingKey_arrived checks ctx.self row
    · exact Or.inr ⟨other, hold, Alike.refl other⟩
  | some held =>
    dsimp only
    cases hmerge : mergeHeld checks ctx link page.tasks.rows held row with
    | none => exact h
    | some result =>
      obtain ⟨merged, preserved⟩ := result
      obtain ⟨hopens, hid, hproject, hkey⟩ := opens_mergeHeld hmerge
      have hadmitted : Alike merged (admitToBoard ctx page.tasks.rows (some held) merged) :=
        alike_admitToBoard page.tasks.rows (some held) merged
      obtain ⟨hheld, -⟩ := Table.get?_eq_some.mp hget
      dsimp only
      split
      · exact h
      · apply OneOpen.put h
        · intro other hother
          rcases Table.mem_set.mp hother with hsame | ⟨hold, -⟩
          · exact Or.inr hsame
          · exact Or.inl hold
        · intro key hadmittedKey hadmittedOpen other hother hne hsameProject hopen hotherKey
          rw [hadmitted.findingKey, hkey] at hadmittedKey
          rw [hadmitted.id, hid] at hne
          rw [hadmitted.project, hproject] at hsameProject
          have hconflict : reopenConflict page.tasks.rows held = true := by
            rw [reopenConflict, hadmittedKey, Option.isSome_some, Bool.true_and, List.any_eq_true]
            exact ⟨other, hother, decide_eq_true ⟨hne, hsameProject, hopen, hotherKey⟩⟩
          rcases hopens hconflict with hstatus | hdone
          · -- the copy was open before, so the other holder was there too
            have hheldOpen : held.status ≠ .done := by
              rw [← hstatus]
              exact fun hdone => hadmittedOpen (hadmitted.status.mpr hdone)
            apply hne
            exact h other hother held hheld (held.project, key)
              (openFinding_eq_some.mpr ⟨hsameProject, hotherKey, hopen⟩)
              (openFinding_eq_some.mpr ⟨rfl, hadmittedKey, hheldOpen⟩)
          · exact hadmittedOpen (hadmitted.status.mpr hdone)

theorem OneOpen.applyRow {checks : WireChecks} {page out : PageState ρ} (h : OneOpen page.tasks.rows)
    {row : WireRow} (happly : LinkedBoards.applyRow checks ctx link page row = .ok out) :
    OneOpen out.tasks.rows := by
  unfold LinkedBoards.applyRow at happly
  split_ifs at happly
  · rw [← Except.ok.inj happly]
    exact h
  · rw [← Except.ok.inj happly]
    exact h
  · cases row with
    | gone row =>
      dsimp only at happly
      unfold applyGone at happly
      dsimp only at happly
      split at happly
      · rw [← Except.ok.inj happly]
        exact h
      · obtain ⟨tasks, hdelete, rfl⟩ := Refusals.map_eq_ok.mp happly
        exact h.deleteTask hdelete
    | stub row =>
      rw [← Except.ok.inj happly]
      unfold applyStub
      dsimp only
      split
      · exact h
      · exact h
    | task row =>
      rw [← Except.ok.inj happly]
      exact h.applyLive row

/-- **A page of a peer's rows keeps the findings.** -/
theorem OneOpen.applyTaskRows {checks : WireChecks} {now : Int} {install out : Install ρ}
    {rows : List WireRow} {outcome : ApplyOutcome} (h : OneOpen install.store.tasks.rows)
    (happly : LinkedBoards.applyTaskRows checks ctx link now install rows = .ok (out, outcome)) :
    OneOpen out.store.tasks.rows := by
  rcases applyTaskRows_cases happly with ⟨rfl, -, -⟩ | ⟨final, hrows, -, hout⟩
  · exact h
  · have hfinal : OneOpen final.tasks.rows := by
      rw [applyRows_eq_run] at hrows
      apply Refusals.run_invariant (I := fun page => OneOpen page.tasks.rows) ?_ ?_ hrows
      · intro page row next _ hpage hnext
        exact hpage.applyRow hnext
      · exact h
    rcases hout with ⟨-, hidle⟩ | ⟨-, hcommit⟩
    · rw [hidle]
      exact h
    · exact hfinal.commit hcommit

end Peers

end Store

/-! ### Patches -/

theorem completed_alike {task previous out : StoredTask} (h : completed task previous = .ok out) :
    Alike task out := by
  unfold completed at h
  split at h
  · rw [← Except.ok.inj h]
    exact ⟨rfl, rfl, rfl, Iff.rfl⟩
  · exact nomatch h

theorem alike_finish (call : PatchCall) (fields : TaskFields) (task : StoredTask) :
    Alike task (finish call fields task) := by
  unfold finish
  dsimp only
  split
  · exact ⟨rfl, rfl, rfl, Iff.rfl⟩
  · exact ⟨rfl, rfl, rfl, Iff.rfl⟩

theorem liftRefusal_eq_ok {α : Type} {result : Except TaskRefusal α} {value : α}
    (h : liftRefusal result = .ok value) : result = .ok value := by
  cases result with
  | ok held => rw [Except.ok.inj h]
  | error refusal => exact nomatch h

/-- What a patch leaves of its task. -/
structure Guarded (existing : List StoredTask) (task out : StoredTask) : Prop where
  id : out.id = task.id
  project : out.project = task.project
  free : ∀ key, out.findingKey = some key → out.status ≠ .done → ∀ row ∈ existing, row.id ≠ task.id →
    row.project = task.project → row.status ≠ .done → row.findingKey ≠ some key

theorem guarded_of_alike {existing : List StoredTask} {task out : StoredTask} (hopen : OneOpen existing)
    (htask : task ∈ existing) (halike : Alike task out) : Guarded existing task out := by
  refine ⟨halike.id, halike.project, ?_⟩
  intro key hkey hstatus row hrow hne hproject hrowOpen hrowKey
  rw [halike.findingKey] at hkey
  rw [Ne, halike.status] at hstatus
  apply hne
  exact hopen row hrow task htask (task.project, key)
    (openFinding_eq_some.mpr ⟨hproject, hrowKey, hrowOpen⟩)
    (openFinding_eq_some.mpr ⟨rfl, hkey, hstatus⟩)

/-- **A patch takes no finding that another open task holds.** -/
theorem guarded_patch {call : PatchCall} {out : StoredTask} (h : patchFound call = .ok out) :
    Guarded call.existing call.task out := by
  unfold patchFound at h
  split at h
  · exact nomatch h
  obtain ⟨-, -, h⟩ := Refusals.bind_eq_ok.mp h
  obtain ⟨fields, -, h⟩ := Refusals.bind_eq_ok.mp h
  split at h
  · exact nomatch h
  next hconflict =>
  obtain ⟨settled, hcompleted, rfl⟩ := Refusals.map_eq_ok.mp h
  have hsettled := completed_alike hcompleted
  have hfinished := alike_finish call fields settled
  refine ⟨hfinished.id.trans hsettled.id, hfinished.project.trans hsettled.project, ?_⟩
  intro key hkey hopen row hrow hne hproject hrowOpen hrowKey
  rw [hfinished.findingKey, hsettled.findingKey] at hkey
  rw [Ne, hfinished.status, hsettled.status] at hopen
  have hfields : fields.findingKey = some key := hkey
  have hstatus : fields.status.getD call.task.status ≠ .done := hopen
  apply hconflict
  rw [findingConflict, hfields, Option.isSome_some, Bool.true_and, Bool.and_eq_true, decide_eq_true_eq,
    List.any_eq_true]
  refine ⟨hstatus, row, hrow, ?_⟩
  simp [hne, hproject, hrowOpen, hrowKey]

theorem changeTask_ok {existing : List StoredTask} {id : String}
    {change : StoredTask → Except TaskFailure StoredTask} {out : Patched}
    (h : changeTask existing id change = .ok out) :
    ∃ task ∈ existing, task.id = id ∧ change task = .ok out.task ∧
      (∀ row ∈ out.tasks, row ∈ existing ∨ row = out.task) ∧ out.task ∈ out.tasks := by
  unfold changeTask at h
  cases hindex : existing.findIdx? fun task => task.id = id with
  | none =>
    rw [hindex] at h
    exact nomatch h
  | some index =>
    rw [hindex] at h
    cases htask : existing[index]? with
    | none =>
      simp only [htask] at h
      exact nomatch h
    | some task =>
      simp only [htask] at h
      obtain ⟨updated, hupdated, rfl⟩ := Refusals.map_eq_ok.mp h
      obtain ⟨hlt, hget⟩ := List.getElem?_eq_some_iff.mp htask
      obtain ⟨_, hid, _⟩ := List.findIdx?_eq_some_iff_getElem.mp hindex
      refine ⟨task, List.mem_of_getElem? htask, ?_, hupdated, ?_, ?_⟩
      · rw [← hget]
        exact of_decide_eq_true hid
      · exact fun row hrow => List.mem_or_eq_of_mem_set hrow
      · exact List.mem_set hlt updated

theorem OneOpen.changeTask {existing : List StoredTask} {id : String}
    {change : StoredTask → Except TaskFailure StoredTask} {out : Patched} (h : OneOpen existing)
    (hchange : TaskCommands.changeTask existing id change = .ok out)
    (hguarded : ∀ task ∈ existing, ∀ updated, change task = .ok updated → Guarded existing task updated) :
    OneOpen out.tasks := by
  obtain ⟨task, htask, -, hupdated, hmem, -⟩ := changeTask_ok hchange
  obtain ⟨hid, hproject, hfree⟩ := hguarded task htask out.task hupdated
  apply h.put hmem
  rw [hid, hproject]
  exact hfree

theorem OneOpen.patchTask {existing : List StoredTask} {id : String} {input : Input} {deps : CommandDeps}
    {out : Patched} (h : OneOpen existing) (hpatch : TaskCommands.patchTask existing id input deps = .ok out) :
    OneOpen out.tasks :=
  h.changeTask hpatch fun _ _ _ hupdated => guarded_patch hupdated

/-! ### Assignments -/

theorem OneOpen.dismissUnstartedLaunch {existing : List StoredTask} {id : String}
    {ref : TaskMembership.AssignmentRef} {now : LinkStamps.Instant} {linkedPipeline : Bool} {out : Patched}
    (h : OneOpen existing)
    (hdismiss : TaskCommands.dismissUnstartedLaunch existing id ref now linkedPipeline = .ok out) :
    OneOpen out.tasks := by
  apply h.changeTask hdismiss
  intro task htask updated hupdated
  dsimp only at hupdated
  split_ifs at hupdated with hnone hsame hsettled
  · rw [← Except.ok.inj hupdated]
    exact guarded_of_alike h htask (Alike.refl task)
  · have hcompleted := completed_alike hupdated
    refine ⟨hcompleted.id, hcompleted.project, ?_⟩
    intro key _ hopen
    rw [Ne, hcompleted.status] at hopen
    exact absurd rfl hopen
  · have hcompleted := completed_alike hupdated
    exact guarded_of_alike h htask ⟨hcompleted.id, hcompleted.project, hcompleted.findingKey, hcompleted.status⟩

theorem OneOpen.applyAssignmentPatches {existing : List StoredTask} {id : String}
    {patches : List AssignmentPatch} {now : LinkStamps.Instant} {out : Patched} (h : OneOpen existing)
    (hpatch : TaskCommands.applyAssignmentPatches existing id patches now = .ok out) :
    OneOpen out.tasks := by
  apply h.changeTask hpatch
  intro task htask updated hupdated
  rw [← Except.ok.inj hupdated]
  apply guarded_of_alike h htask
  refine ⟨rfl, rfl, rfl, ?_⟩
  dsimp only
  split
  · next hearly =>
    have hopen : task.status ≠ .done := by
      rintro hdone
      rw [hdone] at hearly
      rcases hearly with hinbox | hassigned
      · exact nomatch hinbox
      · exact nomatch hassigned
    split
    · simp [hopen]
    · simp [hopen]
  · exact Iff.rfl

/-! ### Creates -/

/-- The block leaves the finding key. -/
def KeepsKey (call : PatchCall) (edit : Edit) : Prop :=
  ∀ fields out, edit call fields = .ok out → out.findingKey = fields.findingKey

theorem keepsKey_of_absent {call : PatchCall} {key : String}
    {edit : PatchCall → Value → TaskFields → Except TaskRefusal TaskFields}
    (habsent : call.input.at? key = none) : KeepsKey call (whenOwn key edit) := by
  intro fields out h
  unfold whenOwn at h
  rw [habsent] at h
  rw [← Except.ok.inj h]

theorem keepsKey_note (call : PatchCall) : KeepsKey call editNote := by
  intro fields out h
  unfold editNote whenOwn at h
  split at h
  · rw [← Except.ok.inj h]
  · obtain ⟨note, -, rfl⟩ := Refusals.map_eq_ok.mp h
    rfl

theorem keepsKey_lines (call : PatchCall) : KeepsKey call editLines := by
  intro fields out h
  unfold editLines at h
  split_ifs at h
  · rw [← Except.ok.inj h]
  · exact nomatch h
  · obtain ⟨details, -, h⟩ := Refusals.bind_eq_ok.mp h
    split at h
    · exact nomatch h
    · rw [← Except.ok.inj h]

theorem keepsKey_hold (call : PatchCall) : KeepsKey call editHold := by
  intro fields out h
  unfold editHold at h
  split at h
  · split at h
    · rw [← Except.ok.inj h]
    · rw [← Except.ok.inj h]
  · split at h
    · rw [← Except.ok.inj h]
    · rw [← Except.ok.inj h]

theorem keepsKey_clearHold (call : PatchCall) : KeepsKey call clearHold := by
  intro fields out h
  rw [← Except.ok.inj h]

theorem keepsKey_links (call : PatchCall) : KeepsKey call editLinks := by
  intro fields out h
  unfold editLinks at h
  split at h
  · obtain ⟨links, -, rfl⟩ := Refusals.map_eq_ok.mp h
    rfl
  · rw [← Except.ok.inj h]

theorem keepsKey_due (call : PatchCall) : KeepsKey call editDue := by
  intro fields out h
  obtain ⟨due, -, rfl⟩ := Refusals.map_eq_ok.mp h
  rfl

/-- A patch of the note leaves the finding key. -/
theorem keepsKey_edits {call : PatchCall} (hnote : ∀ key, key ≠ "note" → call.input.at? key = none) :
    ∀ edit ∈ edits, KeepsKey call edit := by
  unfold edits
  simp only [List.forall_mem_cons]
  refine ⟨keepsKey_of_absent (hnote _ (by decide)), keepsKey_of_absent (hnote _ (by decide)),
    keepsKey_of_absent (hnote _ (by decide)), keepsKey_note call, keepsKey_of_absent (hnote _ (by decide)),
    keepsKey_of_absent (hnote _ (by decide)), keepsKey_lines call, keepsKey_of_absent (hnote _ (by decide)),
    keepsKey_of_absent (hnote _ (by decide)), keepsKey_hold call, keepsKey_of_absent (hnote _ (by decide)),
    keepsKey_clearHold call, keepsKey_of_absent (hnote _ (by decide)),
    keepsKey_of_absent (hnote _ (by decide)), keepsKey_of_absent (hnote _ (by decide)),
    keepsKey_of_absent (hnote _ (by decide)), keepsKey_of_absent (hnote _ (by decide)),
    keepsKey_of_absent (hnote _ (by decide)), keepsKey_of_absent (hnote _ (by decide)), keepsKey_links call,
    keepsKey_due call, fun _ hnil => nomatch hnil⟩

theorem findingKey_noted {call : PatchCall} (hnote : ∀ key, key ≠ "note" → call.input.at? key = none)
    {out : StoredTask} (h : patchFound call = .ok out) : out.findingKey = call.task.findingKey := by
  unfold patchFound at h
  split at h
  · exact nomatch h
  obtain ⟨-, -, h⟩ := Refusals.bind_eq_ok.mp h
  obtain ⟨fields, hfields, h⟩ := Refusals.bind_eq_ok.mp h
  split at h
  · exact nomatch h
  obtain ⟨settled, hcompleted, rfl⟩ := Refusals.map_eq_ok.mp h
  rw [(alike_finish call fields settled).findingKey, (completed_alike hcompleted).findingKey]
  change fields.findingKey = call.task.findingKey
  apply Refusals.run_invariant (I := fun fields => fields.findingKey = call.task.findingKey) ?_ ?_
    (liftRefusal_eq_ok hfields)
  · intro before edit after hedit hbefore hafter
    rw [keepsKey_edits hnote edit hedit before after hafter, hbefore]
  · rfl

theorem createFresh_ok {existing : List StoredTask} {input : Input} {deps : CommandDeps}
    {project text : String} {details : Option String} {progress : Option TaskProgress}
    {key : Option String} {task : StoredTask}
    (h : createFresh existing input deps project text details progress key = .ok task) :
    task.id = deps.id ∧ task.project = project ∧ task.findingKey = key := by
  unfold createFresh at h
  obtain ⟨⟨placement, pos⟩, -, h⟩ := Refusals.bind_eq_ok.mp h
  obtain ⟨due, -, h⟩ := Refusals.bind_eq_ok.mp h
  obtain ⟨attachments, -, h⟩ := Refusals.bind_eq_ok.mp h
  obtain ⟨source, -, h⟩ := Refusals.bind_eq_ok.mp h
  obtain ⟨board, -, h⟩ := Refusals.bind_eq_ok.mp h
  obtain ⟨steps, -, h⟩ := Refusals.bind_eq_ok.mp h
  split at h
  · cases h
  dsimp only at h
  split at h
  · next own note hat =>
    obtain ⟨noted, hpatch, rfl⟩ := Refusals.map_eq_ok.mp h
    obtain ⟨bare, hbare, -, hupdated, -, -⟩ := changeTask_ok hpatch
    obtain rfl := List.mem_singleton.mp hbare
    have hguarded := guarded_patch hupdated
    refine ⟨hguarded.id, hguarded.project, findingKey_noted ?_ hupdated⟩
    intro key hkey
    rw [Entries.at?_set, if_neg hkey, Entries.at?_empty]
  · rw [← Except.ok.inj h]
    exact ⟨rfl, rfl, rfl⟩

theorem recounted_alike (deps : CommandDeps) (prior updated : StoredTask) :
    Alike updated (recounted deps prior updated) := ⟨rfl, rfl, rfl, Iff.rfl⟩

/-- **A create makes no second open task of a finding.** -/
theorem OneOpen.createTask {existing : List StoredTask} {input : Input} {recentCreates : List RecentCreate}
    {deps : CommandDeps} {out : Created} (h : OneOpen existing)
    (hcreate : TaskCommands.createTask existing input recentCreates deps = .ok out) :
    OneOpen out.tasks := by
  unfold TaskCommands.createTask at hcreate
  obtain ⟨⟨project, text, details, progress⟩, -, hcreate⟩ := Refusals.bind_eq_ok.mp hcreate
  dsimp only at hcreate
  split at hcreate
  · rw [← Except.ok.inj hcreate]
    exact h
  obtain ⟨key, -, hcreate⟩ := Refusals.bind_eq_ok.mp hcreate
  split at hcreate
  · next prior _ =>
    obtain ⟨updated, hpatch, hcreate⟩ := Refusals.bind_eq_ok.mp hcreate
    rw [← Except.ok.inj hcreate]
    apply (h.patchTask hpatch).of_alike
    intro row hrow
    obtain ⟨held, hheld, rfl⟩ := List.mem_map.mp hrow
    right
    obtain ⟨-, -, -, -, -, hupdated⟩ := changeTask_ok hpatch
    split
    · exact ⟨updated.task, hupdated, recounted_alike deps prior updated.task⟩
    · exact ⟨held, hheld, Alike.refl held⟩
  · next hnone =>
    obtain ⟨task, hfresh, hcreate⟩ := Refusals.bind_eq_ok.mp hcreate
    obtain ⟨-, hproject, hkey⟩ := createFresh_ok hfresh
    rw [← Except.ok.inj hcreate]
    apply h.put
    · intro row hrow
      rcases List.mem_append.mp hrow with hold | hnew
      · exact Or.inl hold
      · exact Or.inr (List.mem_singleton.mp hnew)
    · intro own hown _ row hrow _ hrowProject hrowOpen hrowKey
      rw [hkey] at hown
      subst hown
      rw [Option.bind_some, List.find?_eq_none] at hnone
      apply hnone row hrow
      simp [hrowProject, hproject, hrowOpen, hrowKey]

/-! ### Runs -/

theorem OneOpen.write {board out : Board} {context : BoardContext} {tasks : List StoredTask}
    {recentCreates : List RecentCreate} (h : OneOpen tasks)
    (hcommit : board.commit context tasks recentCreates = .ok out) : OneOpen out.tasks := by
  unfold Board.commit at hcommit
  split at hcommit
  next hnodup =>
    split at hcommit
    · next store _ hwrite =>
      rw [← Except.ok.inj hcommit]
      obtain ⟨outcome, houtcome, hcases⟩ := mutateLinkedTasks_ok hwrite
      obtain rfl := Except.ok.inj houtcome
      rcases hcases with ⟨hnone, -⟩ | ⟨written, hwritten, hcommitted⟩
      · exact nomatch hnone
      · obtain rfl := Option.some.inj hwritten
        have hrows : OneOpen (⟨tasks, hnodup⟩ : Tasks TaskPart).rows := h
        exact hrows.commit hcommitted
    · exact nomatch hcommit
  · exact nomatch hcommit

theorem OneOpen.run {checks : WireChecks} {board out : Board} {context : BoardContext} {command : Command}
    (h : OneOpen board.tasks) (hrun : board.run checks context command = .ok out) : OneOpen out.tasks := by
  cases command with
  | createTask input deps =>
    obtain ⟨created, hcreate, hrun⟩ := Refusals.bind_eq_ok.mp hrun
    split at hrun
    · rw [← Except.ok.inj hrun]
      exact h
    · exact (h.createTask hcreate).write hrun
  | patchTask id input deps =>
    obtain ⟨patched, hpatch, hrun⟩ := Refusals.bind_eq_ok.mp hrun
    exact (h.patchTask hpatch).write hrun
  | dismissUnstartedLaunch id ref now linkedPipeline =>
    obtain ⟨patched, hdismiss, hrun⟩ := Refusals.bind_eq_ok.mp hrun
    exact (h.dismissUnstartedLaunch hdismiss).write hrun
  | applyAssignmentPatches id patches now =>
    obtain ⟨patched, hpatch, hrun⟩ := Refusals.bind_eq_ok.mp hrun
    exact (h.applyAssignmentPatches hpatch).write hrun
  | deleteTask id =>
    obtain ⟨tasks, hdelete, hrun⟩ := Refusals.bind_eq_ok.mp hrun
    unfold TaskCommands.deleteTask at hdelete
    split at hdelete
    · exact nomatch hdelete
    · split at hdelete
      · next rest hrest =>
        rw [← Except.ok.inj hdelete] at hrun
        exact (OneOpen.deleteTask h hrest).write hrun
      · split at hdelete
        · exact nomatch hdelete
        · exact nomatch hdelete
  | applyTaskRows link now rows =>
    unfold Board.run at hrun
    dsimp only at hrun
    split at hrun
    · next happly =>
      rw [← Except.ok.inj hrun]
      exact OneOpen.applyTaskRows h happly
    · exact nomatch hrun

theorem OneOpen.step {checks : WireChecks} {board : Board} (h : OneOpen board.tasks)
    (call : BoardContext × Command) : OneOpen (board.step checks call).1.tasks := by
  unfold Board.step
  cases hrun : board.run checks call.1 call.2 with
  | ok out => exact h.run hrun
  | error failure => exact h

/-! ### Replays -/

theorem readTaskProgress_isOk {value : Value} {setAt setAt' : LinkStamps.Instant} {setBy setBy' : Actor}
    {progress : Option TaskProgress} (h : readTaskProgress value setAt setBy = .ok progress) :
    ∃ progress', readTaskProgress value setAt' setBy' = .ok progress' := by
  cases value with
  | null => exact ⟨none, rfl⟩
  | int value =>
    unfold readTaskProgress at h ⊢
    dsimp only at h ⊢
    split at h
    · next hrange => exact ⟨_, if_pos hrange⟩
    · exact nomatch h
  | undefined => exact nomatch h
  | text text => exact nomatch h
  | other json => exact nomatch h

theorem checkedProgress_isOk {input : Input} {deps : CommandDeps} (deps' : CommandDeps)
    {progress : Option TaskProgress} (h : checkedProgress input deps = .ok progress) :
    ∃ progress', checkedProgress input deps' = .ok progress' := by
  unfold checkedProgress at h ⊢
  cases hat : input.at? "progress" with
  | none => exact ⟨none, rfl⟩
  | some value =>
    rw [hat] at h
    exact readTaskProgress_isOk h

/-- Whether the checks pass does not depend on the time or the writer. -/
theorem checkCreate_isOk {input : Input} {deps : CommandDeps} (deps' : CommandDeps)
    (hdue : deps'.requireDue = deps.requireDue)
    {checked : String × String × Option String × Option TaskProgress}
    (h : checkCreate input deps = .ok checked) : ∃ checked', checkCreate input deps' = .ok checked' := by
  unfold checkCreate at h ⊢
  obtain ⟨project, hproject, h⟩ := Refusals.bind_eq_ok.mp h
  obtain ⟨text, htext, h⟩ := Refusals.bind_eq_ok.mp h
  obtain ⟨details, hdetails, h⟩ := Refusals.bind_eq_ok.mp h
  obtain ⟨progress, hprogress, h⟩ := Refusals.bind_eq_ok.mp h
  obtain ⟨progress', hprogress'⟩ := checkedProgress_isOk deps' hprogress
  split at h
  · exact nomatch h
  next hdate =>
    refine ⟨(project, text, details, progress'), ?_⟩
    refine Refusals.bind_eq_ok.mpr ⟨project, hproject, Refusals.bind_eq_ok.mpr ⟨text, htext, ?_⟩⟩
    refine Refusals.bind_eq_ok.mpr ⟨details, hdetails, Refusals.bind_eq_ok.mpr ⟨progress', hprogress', ?_⟩⟩
    rw [hdue, if_neg hdate]

/-- **A repeated create answers the task of its receipt and leaves the list.** -/
theorem createTask_replays {earlier existing : List StoredTask} {before recentCreates : List RecentCreate}
    {input : Input} {deps deps' : CommandDeps} {created : Created}
    (hcreated : createTask earlier input before deps = .ok created)
    (hdue : deps'.requireDue = deps.requireDue) {prior : RecentCreate} {task : StoredTask}
    (hreplay : replayOf existing recentCreates (clientRequestId input) = some (prior, task)) :
    createTask existing input recentCreates deps' =
      .ok ⟨existing, task, recentCreates, true, prior.isMatch⟩ := by
  unfold createTask at hcreated ⊢
  obtain ⟨checked, hchecked, -⟩ := Refusals.bind_eq_ok.mp hcreated
  obtain ⟨checked', hchecked'⟩ := checkCreate_isOk deps' hdue (liftRefusal_eq_ok hchecked)
  refine Refusals.bind_eq_ok.mpr ⟨checked', by rw [hchecked']; rfl, ?_⟩
  rw [hreplay]

/-- A receipt is kept, as the only one of its request. -/
theorem find?_receipt (recentCreates : List RecentCreate) (requestId taskId : String)
    (isMatch : Option Bool) :
    (receipt recentCreates (some requestId) taskId isMatch).find?
      (fun entry => entry.clientRequestId = requestId) = some ⟨requestId, taskId, isMatch⟩ := by
  unfold receipt
  dsimp only
  rw [List.length_append, List.length_singleton]
  generalize hothers : (recentCreates.filter fun entry => entry.clientRequestId ≠ requestId) = others
  have hle : others.length + 1 - RECENT_CREATES_CAP ≤ others.length := by
    unfold RECENT_CREATES_CAP
    omega
  rw [List.drop_append_of_le_length hle, List.find?_append]
  have hnone : (others.drop (others.length + 1 - RECENT_CREATES_CAP)).find?
      (fun entry => entry.clientRequestId = requestId) = none := by
    rw [List.find?_eq_none]
    intro entry hentry hsame
    have hmem := List.mem_of_mem_drop hentry
    rw [← hothers] at hmem
    exact of_decide_eq_true (List.mem_filter.mp hmem).2 (of_decide_eq_true hsame)
  rw [hnone, Option.none_or, List.find?_cons_of_pos]
  exact decide_eq_true rfl

/-- A create that is no replay leaves the receipt that its repetition finds. -/
theorem createTask_receipt {existing : List StoredTask} {recentCreates : List RecentCreate} {input : Input}
    {deps : CommandDeps} {out : Created} {requestId : String}
    (hrequest : clientRequestId input = some requestId)
    (hcreate : createTask existing input recentCreates deps = .ok out) (hfirst : out.replay = false) :
    out.recentCreates.find? (fun entry => entry.clientRequestId = requestId) =
      some ⟨requestId, out.task.id, out.isMatch⟩ := by
  unfold createTask at hcreate
  obtain ⟨⟨project, text, details, progress⟩, -, hcreate⟩ := Refusals.bind_eq_ok.mp hcreate
  dsimp only at hcreate
  split at hcreate
  · rw [← Except.ok.inj hcreate] at hfirst
    exact nomatch hfirst
  obtain ⟨key, -, hcreate⟩ := Refusals.bind_eq_ok.mp hcreate
  split at hcreate
  · obtain ⟨updated, -, hcreate⟩ := Refusals.bind_eq_ok.mp hcreate
    rw [← Except.ok.inj hcreate, hrequest]
    exact find?_receipt recentCreates requestId _ _
  · obtain ⟨task, hfresh, hcreate⟩ := Refusals.bind_eq_ok.mp hcreate
    rw [← Except.ok.inj hcreate, hrequest]
    dsimp only
    rw [(createFresh_ok hfresh).1]
    exact find?_receipt recentCreates requestId _ _

/-! ### The board -/

/-- The open tasks of a finding. -/
def openCount (tasks : List StoredTask) (project key : String) : Nat :=
  tasks.countP fun task => task.project = project ∧ task.findingKey = some key ∧ task.status ≠ .done

theorem openCount_eq (tasks : List StoredTask) (project key : String) :
    openCount tasks project key = tasks.countP fun task => openFinding task = some (project, key) := by
  unfold openCount
  simp only [openFinding_eq_some]

/-- **One open task for each finding**, on every board that commands and peers lead to, and a repeated
create changes nothing. -/
theorem one_open_task (checks : WireChecks) {board : Board}
    (hstart : ∀ project key, openCount board.tasks project key ≤ 1) (calls : List (BoardContext × Command)) :
    let out := Runs.after (Board.step checks) board calls
    (∀ project key, openCount out.tasks project key ≤ 1) ∧
    ∀ earlier before input deps created, createTask earlier input before deps = .ok created →
      ∀ context deps' prior task, deps'.requireDue = deps.requireDue →
        replayOf out.tasks out.recentCreates (clientRequestId input) = some (prior, task) →
          createTask out.tasks input out.recentCreates deps' =
            .ok ⟨out.tasks, task, out.recentCreates, true, prior.isMatch⟩ ∧
          out.step checks (context, .createTask input deps') = (out, none) := by
  intro out
  have hopen : OneOpen out.tasks := by
    apply Runs.after_invariant (P := fun board : Board => OneOpen board.tasks)
    · exact fun board call h => h.step call
    · apply oneHolder_of_countP
      rintro ⟨project, key⟩
      rw [← openCount_eq]
      exact hstart project key
  refine ⟨?_, ?_⟩
  · intro project key
    rw [openCount_eq]
    exact hopen.countP_le_one out.install.store.tasks.nodup (project, key)
  · intro earlier before input deps created hcreated context deps' prior task hdue hreplay
    have hanswer := createTask_replays hcreated hdue hreplay
    refine ⟨hanswer, ?_⟩
    have hrun : out.run checks context (.createTask input deps') = .ok out := by
      refine Refusals.bind_eq_ok.mpr ⟨_, hanswer, ?_⟩
      rw [if_pos rfl]
    unfold Board.step
    rw [hrun]

/-! ### A finding that is reported twice -/

def plainReaders : FieldReaders where
  summary := fun _ => .ok none
  hold := fun _ _ => none
  storedHold := fun _ => none
  steps := fun _ _ => .ok none
  icon := fun _ => none
  color := fun _ => none
  pos := fun _ => none
  posError := fun _ => ⟨"pos must be an object with finite x and y", 400, some "TASK_INVALID_FIELD", some "pos"⟩
  lineEdits := fun _ _ => .ok none
  attachments := fun _ => .ok none
  source := fun _ => .ok none
  createDue := fun _ => .ok none
  patchDue := fun _ _ => .ok none
  workLinks := fun _ _ => .ok none
  taskRevision := fun task => task.id
  matchesShortId := fun revision shown => revision = shown

def reportDeps (id : String) : CommandDeps where
  now := ⟨"2026-01-01T00:00:00.000Z", none⟩
  id := id
  actor := none
  statusActor := none
  noteAuthor := "operator"
  requireDue := false
  requirePlacementGuards := false
  explicit := true
  allowBoardOverflow := false
  canonicalProject := fun project => project
  showsOnBoard := fun _ => true
  seatHolding := fun _ => .free
  localeCompare := fun _ _ => 0
  readers := plainReaders

def report (requestId : String) : Input :=
  Table.ofList [("project", .text "p"), ("text", .text "Slow"), ("findingKey", .text "k"),
    ("placement", .text "unplaced"), ("clientRequestId", .text requestId)]

def boardContext : BoardContext :=
  ⟨[], ⟨"m1", "0001"⟩, fun _ => 0, ⟨fun _ _ => ⟨"", none⟩, fun _ _ => "t9"⟩, fun _ => true⟩

def wireChecks : WireChecks := ⟨fun _ => 100, fun _ => true⟩

def reportCalls : List (BoardContext × Command) :=
  [(boardContext, .createTask (report "a") (reportDeps "t1")),
    (boardContext, .createTask (report "b") (reportDeps "t2"))]

def emptyBoard : Board := ⟨⟨emptyStore TaskPart, Table.empty⟩, []⟩

theorem openCount_emptyBoard (project key : String) : openCount emptyBoard.tasks project key ≤ 1 := by
  rw [Board.tasks, emptyBoard, openCount]
  exact Nat.zero_le 1

theorem one_open_task_report :
    ((Runs.after (Board.step wireChecks) emptyBoard reportCalls).tasks.map (·.id) = ["t1"]) ∧
      openCount (Runs.after (Board.step wireChecks) emptyBoard reportCalls).tasks "p" "k" ≤ 1 :=
  ⟨by decide, (one_open_task wireChecks openCount_emptyBoard reportCalls).1 "p" "k"⟩

end Delegatus.TaskCommands
