import Delegatus.LinkedMergeSteps
import Delegatus.LinkedStamping
import Delegatus.Runs

/-!
# Deletion on a linked board

A run of an install is any sequence of local writes, local field writes and applied
pages.  No step removes a tombstone, and a page never brings back a task whose id holds
one; a local write, however, does not look at the tombstones, so one that creates a task
under a deleted task's id (a notice with a deterministic id does) leaves both.
`deletion_terminal_iff` says that this is the only way: the states of a run hold no task
beside its tombstone exactly when no local write of the run recreates a deleted task, and
then every deletion stands for the rest of the run.
-/

namespace Delegatus.LinkedBoards

open LinkStamps

/-! ### Runs -/

/-- One call on an install. -/
inductive BoardOp (ρ : Type) where
  | write (ctx : WriteContext ρ) (mutate : Tasks ρ → Except String (Option (Tasks ρ)))
  | localField (ctx : WriteContext ρ) (taskId : String)
      (change : BoardTask ρ → Option (Instant × ρ))
  | page (ctx : WriteContext ρ) (link : ApplyLink) (now : Int) (rows : List WireRow)

inductive Answer where
  | written
  | applied (outcome : ApplyOutcome)
  | thrown (error : String)
  deriving DecidableEq

section Deletion

variable {ρ : Type} [DecidableEq ρ] [Inhabited ρ]

/-- One call; a call that throws changes nothing. -/
def boardStep (checks : WireChecks) (install : Install ρ) : BoardOp ρ → Install ρ × Answer
  | .write ctx mutate =>
    match mutateTasks ctx install.store mutate with
    | .ok (store, ()) => ({ install with store := store }, .written)
    | .error error => (install, .thrown error)
  | .localField ctx taskId change =>
    ({ install with store := mutateTaskLocalField ctx install.store taskId change }, .written)
  | .page ctx link now rows =>
    match applyTaskRows checks ctx link now install rows with
    | .ok (install, outcome) => (install, .applied outcome)
    | .error error => (install, .thrown error)

/-- No task is held under an id that holds a tombstone. -/
def Exclusive (store : TaskStore ρ) : Prop :=
  ∀ id, store.companion.isTombstone id = true → store.tasks.has id = false

/-- The call is a local write that commits, and one of its tasks has the id of a task
that was deleted. -/
def Recreates (install : Install ρ) : BoardOp ρ → Prop
  | .write ctx mutate =>
    ∃ tasks settled, mutate install.store.tasks = .ok (some tasks) ∧
      settleTasks ctx install.store.tasks tasks.rows = .ok settled ∧
      ∃ task ∈ tasks.rows, install.store.companion.isTombstone task.id = true
  | _ => False

/-- The random ids that a page draws for placeholders are ids of no tombstone and of no
row of the page. -/
def FreshPlaceholders (install : Install ρ) : BoardOp ρ → Prop
  | .page ctx _ _ rows =>
    ∀ tasks task memberships, ctx.lostMemberships tasks task = .ok memberships →
      ∀ id text createdAt rest, Membership.placeholder id text createdAt rest ∈ memberships →
        install.store.companion.isTombstone id = false ∧ ∀ row ∈ rows, row.id ≠ id
  | _ => True

/-! ### What a row of a page does to the ids -/

omit [DecidableEq ρ] [Inhabited ρ] in
/-- Binding a membership adds no id but a placeholder's. -/
theorem has_bindMembership {project : String} {tasks : Tasks ρ} {membership : Membership ρ}
    {id : String} (h : (bindMembership project tasks membership).has id = true) :
    tasks.has id = true ∨
      ∃ text createdAt rest, membership = .placeholder id text createdAt rest := by
  cases membership with
  | upsertLinked task added updatedAt rest =>
    left
    obtain ⟨row, hmem, hid⟩ := Table.has_eq_true.mp h
    simp only [bindMembership, Table.rows_modify, List.mem_map] at hmem
    obtain ⟨old, hold, rfl⟩ := hmem
    refine Table.has_eq_true.mpr ⟨old, hold, ?_⟩
    rw [← hid]
    split
    · rfl
    · rfl
  | placeholder newId text createdAt rest =>
    rcases (Table.has_set _ _ _).mp h with hid | hold
    · exact Or.inr ⟨text, createdAt, rest, by rw [hid]⟩
    · exact Or.inl hold

omit [DecidableEq ρ] [Inhabited ρ] in
theorem has_bindMemberships {project : String} {memberships : List (Membership ρ)}
    {tasks : Tasks ρ} {id : String}
    (h : (memberships.foldl (bindMembership project) tasks).has id = true) :
    tasks.has id = true ∨
      ∃ text createdAt rest, Membership.placeholder id text createdAt rest ∈ memberships := by
  induction memberships generalizing tasks with
  | nil => exact Or.inl h
  | cons membership rest ih =>
    rcases ih h with hhas | ⟨text, createdAt, local', hmem⟩
    · rcases has_bindMembership hhas with hold | ⟨text, createdAt, local', rfl⟩
      · exact Or.inl hold
      · exact Or.inr ⟨text, createdAt, local', List.mem_cons_self⟩
    · exact Or.inr ⟨text, createdAt, local', List.mem_cons_of_mem _ hmem⟩

omit [DecidableEq ρ] [Inhabited ρ] in
/-- A deletion leaves the other tasks, and placeholders. -/
theorem has_deleteTask {ctx : WriteContext ρ} {tasks tasks' : Tasks ρ} {task : BoardTask ρ}
    (h : deleteTask ctx tasks task = .ok tasks') {id : String} (hhas : tasks'.has id = true) :
    (id ≠ task.id ∧ tasks.has id = true) ∨
      ∃ memberships, ctx.lostMemberships (tasks.delete task.id).rows task = .ok memberships ∧
        ∃ text createdAt rest, Membership.placeholder id text createdAt rest ∈ memberships := by
  unfold deleteTask at h
  split at h
  · simp at h
  · dsimp only at h
    cases hlost : ctx.lostMemberships (tasks.delete task.id).rows task with
    | error error =>
      rw [hlost] at h
      simp [Except.map] at h
    | ok memberships =>
      rw [hlost] at h
      simp only [Except.map, Except.ok.injEq] at h
      rcases has_bindMemberships (h ▸ hhas) with hold | hnew
      · exact Or.inl ((Table.has_delete _ _ _).mp hold)
      · exact Or.inr ⟨memberships, rfl, hnew⟩

/-! ### The page keeps tasks and tombstones apart -/

/-- The page holds no task beside a tombstone, and its tombstones are of ids in `P`. -/
structure PageExclusive (P : String → Prop) (page : PageState ρ) : Prop where
  buried : ∀ id, page.companion.isTombstone id = true → P id
  absent : ∀ id, page.companion.isTombstone id = true → page.tasks.has id = false

/-- What one row of a page does to ids and tombstones. -/
structure RowApplied (link : ApplyLink) (ctx : WriteContext ρ) (row : WireRow)
    (page page' : PageState ρ) : Prop where
  tombstones : ∀ id, page.companion.isTombstone id = true → page'.companion.isTombstone id = true
  idle : page'.count = 0 → page.count = 0 ∧ page'.tasks = page.tasks
  gone : ∀ gone, row = .gone gone → gone.project ∈ link.projects → gone.project ∈ ctx.linked →
    page'.companion.isTombstone gone.id = true

omit [DecidableEq ρ] [Inhabited ρ] in
theorem applyGone_spec {P : String → Prop} {ctx : WriteContext ρ} {link : ApplyLink}
    {page page' : PageState ρ} {row : WireGone} (hP : P row.id)
    (hplace : ∀ tasks task memberships, ctx.lostMemberships tasks task = .ok memberships →
      ∀ id text createdAt rest, Membership.placeholder id text createdAt rest ∈ memberships → ¬ P id)
    (hpage : PageExclusive P page) (h : applyGone ctx link page row = .ok page') :
    PageExclusive P page' ∧ RowApplied link ctx (.gone row) page page' := by
  -- the tombstones and the tasks afterwards, whether or not a task was held
  have hafter : (∀ id, page'.companion.isTombstone id = true ↔
        id = row.id ∨ page.companion.isTombstone id = true) ∧
      page'.count = page.count + 1 ∧
      ∀ id, page'.tasks.has id = true →
        (id ≠ row.id ∧ page.tasks.has id = true) ∨ ¬ P id := by
    unfold applyGone at h
    dsimp only at h
    split at h
    · rename_i hheld
      simp only [Except.ok.injEq] at h
      subst h
      refine ⟨isTombstone_buryFromPeer link _ row _, rfl, fun id hid => Or.inl ⟨?_, hid⟩⟩
      rintro rfl
      have hnone : page.tasks.has row.id = false := by
        rw [← Bool.not_eq_true, ← Table.get?_isSome, hheld]
        simp
      rw [hnone] at hid
      exact absurd hid (by simp)
    · rename_i task hheld
      have htask : task.id = row.id := (Table.get?_eq_some.mp hheld).2
      cases hdelete : deleteTask ctx page.tasks task with
      | error error =>
        rw [hdelete] at h
        simp [Except.map] at h
      | ok tasks =>
        rw [hdelete] at h
        simp only [Except.map, Except.ok.injEq] at h
        subst h
        refine ⟨isTombstone_buryFromPeer link _ row _, rfl, fun id hid => ?_⟩
        rcases has_deleteTask hdelete hid with ⟨hne, hold⟩ | ⟨memberships, hlost, text, createdAt, rest, hmem⟩
        · exact Or.inl ⟨htask ▸ hne, hold⟩
        · exact Or.inr (hplace _ _ _ hlost id text createdAt rest hmem)
  obtain ⟨htombs, hcount, htasks⟩ := hafter
  have hburied : ∀ id, page'.companion.isTombstone id = true → P id := by
    intro id hid
    rcases (htombs id).mp hid with rfl | hold
    · exact hP
    · exact hpage.buried id hold
  refine ⟨⟨hburied, ?_⟩, ⟨fun id hid => (htombs id).mpr (Or.inr hid), ?_, ?_⟩⟩
  · intro id hid
    rw [← Bool.not_eq_true]
    intro hhas
    rcases htasks id hhas with ⟨hne, hold⟩ | hfresh
    · rcases (htombs id).mp hid with heq | hbefore
      · exact hne heq
      · rw [hpage.absent id hbefore] at hold
        exact absurd hold (by simp)
    · exact hfresh (hburied id hid)
  · intro hzero
    omega
  · intro gone heq _ _
    obtain rfl := WireRow.gone.inj heq
    exact (htombs _).mpr (Or.inl rfl)

theorem applyLive_spec {P : String → Prop} {checks : WireChecks} {ctx : WriteContext ρ}
    {link : ApplyLink} {page : PageState ρ} {row : WireTask}
    (hno : page.companion.isTombstone row.id = false) (hpage : PageExclusive P page) :
    PageExclusive P (applyLive checks ctx link page row) ∧
      RowApplied link ctx (.task row) page (applyLive checks ctx link page row) := by
  have htombs : (applyLive checks ctx link page row).companion.tombstones =
      page.companion.tombstones := by
    rw [applyLive_companion]
  have hothers : ∀ id, id ≠ row.id →
      (applyLive checks ctx link page row).tasks.get? id = page.tasks.get? id := by
    cases hheld : page.tasks.get? row.id with
    | none => exact (applyLive_absent checks ctx link hheld).2.1
    | some held => exact (applyLive_present checks ctx link hheld).2.1
  have htasks : ∀ id, (applyLive checks ctx link page row).tasks.has id = true →
      id = row.id ∨ page.tasks.has id = true := by
    intro id hid
    by_cases h : id = row.id
    · exact Or.inl h
    · right
      rw [← Table.get?_isSome] at hid ⊢
      rw [← hothers id h]
      exact hid
  have htombs' : ∀ id, (applyLive checks ctx link page row).companion.isTombstone id =
      page.companion.isTombstone id := by
    intro id
    rw [Companion.isTombstone, htombs]
    rfl
  refine ⟨⟨fun id hid => hpage.buried id (htombs' id ▸ hid), fun id hid => ?_⟩,
    ⟨fun id hid => (htombs' id).trans hid, applyLive_idle, fun gone heq => by cases heq⟩⟩
  rw [← Bool.not_eq_true]
  intro hhas
  rw [htombs'] at hid
  rcases htasks id hhas with rfl | hold
  · rw [hno] at hid
    exact absurd hid (by simp)
  · rw [hpage.absent id hid] at hold
    exact absurd hold (by simp)

/-- **One row of a page** keeps tasks and tombstones apart, whatever its kind. -/
theorem applyRow_spec {P : String → Prop} {checks : WireChecks} {ctx : WriteContext ρ}
    {link : ApplyLink} {page page' : PageState ρ} {row : WireRow} (hP : P row.id)
    (hplace : ∀ tasks task memberships, ctx.lostMemberships tasks task = .ok memberships →
      ∀ id text createdAt rest, Membership.placeholder id text createdAt rest ∈ memberships → ¬ P id)
    (hpage : PageExclusive P page) (h : applyRow checks ctx link page row = .ok page') :
    PageExclusive P page' ∧ RowApplied link ctx row page page' := by
  unfold applyRow at h
  split at h
  · rename_i hunshared
    simp only [Except.ok.injEq] at h
    subst h
    refine ⟨hpage, ⟨fun _ hid => hid, fun hzero => ⟨hzero, rfl⟩, ?_⟩⟩
    rintro gone rfl hlink hlinked
    rcases hunshared with hnot | hnot
    · exact absurd hlink hnot
    · exact absurd hlinked hnot
  · split at h
    · simp at h
    · split at h
      · rename_i htomb
        simp only [Except.ok.injEq] at h
        subst h
        refine ⟨hpage, ⟨fun _ hid => hid, fun hzero => ⟨hzero, rfl⟩, ?_⟩⟩
        rintro gone rfl _ _
        exact htomb
      · rename_i hno
        cases row with
        | gone row => exact applyGone_spec hP hplace hpage h
        | stub row =>
          simp only [Except.ok.injEq] at h
          subst h
          have hstub : (applyStub page row).companion.tombstones = page.companion.tombstones ∧
              (applyStub page row).tasks = page.tasks ∧
              (applyStub page row).count = page.count := by
            unfold applyStub
            dsimp only
            split
            · exact ⟨rfl, rfl, rfl⟩
            · exact ⟨rfl, rfl, rfl⟩
          have htombs : ∀ id, (applyStub page row).companion.isTombstone id =
              page.companion.isTombstone id := by
            intro id
            rw [Companion.isTombstone, hstub.1]
            rfl
          refine ⟨⟨fun id hid => hpage.buried id (htombs id ▸ hid), fun id hid => ?_⟩,
            ⟨fun id hid => (htombs id).trans hid, fun hzero => ⟨hstub.2.2 ▸ hzero, hstub.2.1⟩,
              fun gone heq => by cases heq⟩⟩
          rw [hstub.2.1]
          exact hpage.absent id (htombs id ▸ hid)
        | task row =>
          simp only [Except.ok.injEq] at h
          subst h
          exact applyLive_spec (Bool.not_eq_true _ ▸ hno) hpage

/-- The rows of a page, in order. -/
theorem applyRows_spec {P : String → Prop} {checks : WireChecks} {ctx : WriteContext ρ}
    {link : ApplyLink} {rows : List WireRow} {page page' : PageState ρ}
    (hP : ∀ row ∈ rows, P row.id)
    (hplace : ∀ tasks task memberships, ctx.lostMemberships tasks task = .ok memberships →
      ∀ id text createdAt rest, Membership.placeholder id text createdAt rest ∈ memberships → ¬ P id)
    (hpage : PageExclusive P page) (h : applyRows checks ctx link page rows = .ok page') :
    PageExclusive P page' ∧
      (∀ id, page.companion.isTombstone id = true → page'.companion.isTombstone id = true) ∧
      (page'.count = 0 → page.count = 0 ∧ page'.tasks = page.tasks) ∧
      ∀ gone, .gone gone ∈ rows → gone.project ∈ link.projects → gone.project ∈ ctx.linked →
        page'.companion.isTombstone gone.id = true := by
  induction rows generalizing page with
  | nil =>
    simp only [applyRows, Except.ok.injEq] at h
    subst h
    exact ⟨hpage, fun _ hid => hid, fun hzero => ⟨hzero, rfl⟩, by simp⟩
  | cons row rest ih =>
    unfold applyRows at h
    split at h
    · rename_i mid hrow
      obtain ⟨hmid, happlied⟩ := applyRow_spec (hP row List.mem_cons_self) hplace hpage hrow
      obtain ⟨hpage', htombs, hidle, hgone⟩ :=
        ih (fun row hmem => hP row (List.mem_cons_of_mem _ hmem)) hmid h
      refine ⟨hpage', fun id hid => htombs id (happlied.tombstones id hid), ?_, ?_⟩
      · intro hzero
        obtain ⟨hcount, htasks⟩ := hidle hzero
        obtain ⟨hcount', htasks'⟩ := happlied.idle hcount
        exact ⟨hcount', htasks.trans htasks'⟩
      · intro gone hmem hlink hlinked
        rcases List.mem_cons.mp hmem with rfl | hmem
        · exact htombs _ (happlied.gone gone rfl hlink hlinked)
        · exact hgone gone hmem hlink hlinked
    · simp at h

/-! ### A committed write keeps tasks and tombstones apart -/

omit [Inhabited ρ] in
theorem has_committedRows {ctx : WriteContext ρ} {preserved : List (String × TaskSyncGroup)}
    {before tasks : Tasks ρ} {companion : Companion} {store : TaskStore ρ}
    (h : committedRows ctx preserved before tasks companion = .ok store) (id : String) :
    store.tasks.has id = tasks.has id := by
  have hrel := get?_committedRows h id
  rw [Bool.eq_iff_iff, ← Table.get?_isSome, ← Table.get?_isSome]
  generalize tasks.get? id = a, store.tasks.get? id = b at hrel
  cases hrel with
  | some _ => simp
  | none => simp

omit [Inhabited ρ] in
/-- A commit is exclusive exactly when the callback returned no task beside a tombstone. -/
theorem exclusive_committedRows {ctx : WriteContext ρ} {preserved : List (String × TaskSyncGroup)}
    {before tasks : Tasks ρ} {companion : Companion} {store : TaskStore ρ}
    (h : committedRows ctx preserved before tasks companion = .ok store) :
    Exclusive store ↔ ∀ id, companion.isTombstone id = true → tasks.has id = false := by
  have htombs := (committedRows_ok h).2
  constructor
  · intro hstore id hid
    rw [← has_committedRows h]
    exact hstore id ((htombs id).mpr (Or.inl hid))
  · intro hnone id hid
    rw [has_committedRows h]
    rcases (htombs id).mp hid with hold | ⟨-, -, -, -, habsent⟩
    · exact hnone id hold
    · exact Table.has_eq_false.mpr habsent

/-- What one call leaves standing: every tombstone, and an exclusive store. -/
def Stands (before after : TaskStore ρ) : Prop :=
  Exclusive after ∧
    ∀ id, before.companion.isTombstone id = true → after.companion.isTombstone id = true

omit [DecidableEq ρ] [Inhabited ρ] in
theorem stands_self {store : TaskStore ρ} (h : Exclusive store) : Stands store store :=
  ⟨h, fun _ hid => hid⟩

/-- The page before its first row. -/
def pageStart (store : TaskStore ρ) : PageState ρ := ⟨store.tasks, store.companion, [], 0⟩

/-- **A page that does not throw** was refused or empty, or its rows were applied in order,
and committed unless they changed nothing. -/
theorem applyTaskRows_cases {checks : WireChecks} {ctx : WriteContext ρ} {link : ApplyLink}
    {now : Int} {install install' : Install ρ} {rows : List WireRow} {outcome : ApplyOutcome}
    (h : applyTaskRows checks ctx link now install rows = .ok (install', outcome)) :
    (install' = install ∧ outcome.changed = 0 ∧ (outcome.refused = none → rows = [])) ∨
      ∃ final, applyRows checks ctx link (pageStart install.store) rows = .ok final ∧
        outcome = ⟨final.count, none⟩ ∧
        ((final.count = 0 ∧ install'.store = ⟨install.store.tasks, final.companion⟩) ∨
          (final.count ≠ 0 ∧
            committedRows ctx final.preserved install.store.tasks final.tasks final.companion =
              .ok install'.store)) := by
  unfold applyTaskRows at h
  split at h
  · rename_i hempty
    cases h
    exact Or.inl ⟨rfl, rfl, fun _ => hempty⟩
  · split at h
    · cases h
      exact Or.inl ⟨rfl, rfl, by simp⟩
    · split at h
      · cases h
        exact Or.inl ⟨rfl, rfl, by simp⟩
      · right
        cases hpage : applyRows checks ctx link (pageStart install.store) rows with
        | error error =>
          unfold pageStart at hpage
          simp [mutateLinkedTasks, applyPage, hpage, Except.map] at h
        | ok final =>
          unfold pageStart at hpage
          refine ⟨final, rfl, ?_⟩
          by_cases hzero : final.count = 0
          · simp only [mutateLinkedTasks, applyPage, hpage, Except.map, hzero, if_true,
              Except.ok.injEq, Prod.mk.injEq] at h
            obtain ⟨rfl, rfl⟩ := h
            exact ⟨hzero ▸ rfl, Or.inl ⟨hzero, rfl⟩⟩
          · simp only [mutateLinkedTasks, applyPage, hpage, Except.map, hzero, if_false] at h
            cases hcommit : committedRows ctx final.preserved install.store.tasks final.tasks
                final.companion with
            | error error => simp [hcommit] at h
            | ok store =>
              simp only [hcommit, Except.ok.injEq, Prod.mk.injEq] at h
              obtain ⟨rfl, rfl⟩ := h
              exact ⟨rfl, Or.inr ⟨hzero, rfl⟩⟩

/-- **A page** leaves an exclusive store exclusive, keeps its tombstones, and adds those of
its deletion rows. -/
theorem applyTaskRows_stands {checks : WireChecks} {ctx : WriteContext ρ} {link : ApplyLink}
    {now : Int} {install install' : Install ρ} {rows : List WireRow} {outcome : ApplyOutcome}
    (hexclusive : Exclusive install.store)
    (hfresh : FreshPlaceholders install (.page ctx link now rows))
    (h : applyTaskRows checks ctx link now install rows = .ok (install', outcome)) :
    Stands install.store install'.store ∧
      (outcome.refused = none → ∀ gone, .gone gone ∈ rows → gone.project ∈ link.projects →
        gone.project ∈ ctx.linked → install'.store.companion.isTombstone gone.id = true) := by
  rcases applyTaskRows_cases h with ⟨rfl, -, hempty⟩ | ⟨final, hpage, rfl, hstore⟩
  · refine ⟨stands_self hexclusive, fun hnone gone hmem => ?_⟩
    rw [hempty hnone] at hmem
    simp at hmem
  · let P : String → Prop := fun id =>
      install.store.companion.isTombstone id = true ∨ ∃ row ∈ rows, row.id = id
    have hplace : ∀ tasks task memberships, ctx.lostMemberships tasks task = .ok memberships →
        ∀ id text createdAt rest,
          Membership.placeholder id text createdAt rest ∈ memberships → ¬ P id := by
      intro tasks task memberships hlost id text createdAt rest hmem
      obtain ⟨hno, hrows⟩ := hfresh tasks task memberships hlost id text createdAt rest hmem
      rintro (htomb | ⟨row, hrow, hid⟩)
      · rw [hno] at htomb
        exact absurd htomb (by simp)
      · exact hrows row hrow hid
    have hstart : PageExclusive P (pageStart install.store) :=
      ⟨fun id hid => Or.inl hid, hexclusive⟩
    obtain ⟨hend, htombs, hidle, hgone⟩ := applyRows_spec
      (fun row hrow => Or.inr ⟨row, hrow, rfl⟩) hplace hstart hpage
    rcases hstore with ⟨hzero, hstore⟩ | ⟨-, hcommit⟩
    · obtain ⟨-, htasks⟩ := hidle hzero
      rw [hstore]
      refine ⟨⟨fun id hid => ?_, htombs⟩, fun _ => hgone⟩
      have habsent := hend.absent id hid
      rw [htasks] at habsent
      exact habsent
    · have hcommitted := (committedRows_ok hcommit).2
      refine ⟨⟨(exclusive_committedRows hcommit).mpr hend.absent, ?_⟩, ?_⟩
      · intro id hid
        exact (hcommitted id).mpr (Or.inl (htombs id hid))
      · intro _ gone hmem hlink hlinked
        exact (hcommitted _).mpr (Or.inl (hgone gone hmem hlink hlinked))

omit [DecidableEq ρ] [Inhabited ρ] in
theorem exclusive_mutateTaskLocalField {ctx : WriteContext ρ} {store : TaskStore ρ}
    (h : Exclusive store) (taskId : String) (change : BoardTask ρ → Option (Instant × ρ)) :
    Stands store (mutateTaskLocalField ctx store taskId change) := by
  unfold mutateTaskLocalField
  split
  · exact stands_self h
  · rename_i task htask
    split
    · exact stands_self h
    · refine ⟨fun id hid => ?_, fun _ hid => hid⟩
      rw [← Bool.not_eq_true]
      intro hhas
      rcases (Table.has_set _ _ _).mp hhas with rfl | hold
      · have hheld : store.tasks.has task.id = true :=
          Table.has_eq_true.mpr ⟨task, (Table.get?_eq_some.mp htask).1, rfl⟩
        rw [h _ hid] at hheld
        exact absurd hheld (by simp)
      · rw [h id hid] at hold
        exact absurd hold (by simp)

/-- **A local write** leaves an exclusive store exclusive exactly when it recreates no
deleted task; it keeps the tombstones in any case. -/
theorem write_stands (checks : WireChecks) {install : Install ρ} (ctx : WriteContext ρ)
    (mutate : Tasks ρ → Except String (Option (Tasks ρ))) (h : Exclusive install.store) :
    let after := (boardStep checks install (.write ctx mutate)).1
    (Exclusive after.store ↔ ¬ Recreates install (.write ctx mutate)) ∧
      ∀ id, install.store.companion.isTombstone id = true →
        after.store.companion.isTombstone id = true := by
  intro after
  -- a call that commits no task list changes nothing
  have hidle : after = install → ¬ Recreates install (.write ctx mutate) →
      (Exclusive after.store ↔ ¬ Recreates install (.write ctx mutate)) ∧
        ∀ id, install.store.companion.isTombstone id = true →
          after.store.companion.isTombstone id = true := by
    intro hafter hno
    rw [hafter]
    exact ⟨⟨fun _ => hno, fun _ => h⟩, fun _ hid => hid⟩
  cases hmutate : mutate install.store.tasks with
  | error error =>
    apply hidle
    · simp [after, boardStep, mutateTasks, mutateLinkedTasks, hmutate, Except.map]
    · rintro ⟨tasks, settled, hok, -⟩
      simp [hmutate] at hok
  | ok next =>
    cases next with
    | none =>
      apply hidle
      · simp [after, boardStep, mutateTasks, mutateLinkedTasks, hmutate, Except.map]
      · rintro ⟨tasks, settled, hok, -⟩
        simp [hmutate] at hok
    | some tasks =>
      cases hcommit : committedRows ctx [] install.store.tasks tasks install.store.companion with
      | error error =>
        apply hidle
        · simp [after, boardStep, mutateTasks, mutateLinkedTasks, hmutate, Except.map, hcommit]
        · rintro ⟨tasks', settled, hok, hsettle, -⟩
          have htasks : tasks = tasks' := by simpa [hmutate] using hok
          subst htasks
          simp [committedRows, hsettle, Except.map] at hcommit
      | ok store =>
        have hafter : after = { install with store := store } := by
          simp [after, boardStep, mutateTasks, mutateLinkedTasks, hmutate, Except.map, hcommit]
        rw [hafter]
        refine ⟨(exclusive_committedRows hcommit).trans ⟨?_, ?_⟩, fun id hid =>
          ((committedRows_ok hcommit).2 id).mpr (Or.inl hid)⟩
        · rintro hnone ⟨tasks', -, hok, -, task, hmem, htomb⟩
          have htasks : tasks = tasks' := by simpa [hmutate] using hok
          subst htasks
          exact (Table.has_eq_false.mp (hnone task.id htomb)) task hmem rfl
        · intro hno id hid
          rw [← Bool.not_eq_true]
          intro hhas
          obtain ⟨task, hmem, rfl⟩ := Table.has_eq_true.mp hhas
          cases hsettle : settleTasks ctx install.store.tasks tasks.rows with
          | error error => simp [committedRows, hsettle, Except.map] at hcommit
          | ok settled => exact hno ⟨tasks, settled, hmutate, hsettle, task, hmem, hid⟩

/-! ### Runs -/

/-- Every placeholder that the run drew an id for drew a fresh one. -/
def FreshRun (checks : WireChecks) (start : Install ρ) (ops : List (BoardOp ρ)) : Prop :=
  Runs.EveryCall (boardStep checks) FreshPlaceholders start ops

/-- No local write of the run creates a task under the id of a deleted one. -/
def NoRecreation (checks : WireChecks) (start : Install ρ) (ops : List (BoardOp ρ)) : Prop :=
  Runs.EveryCall (boardStep checks) (fun install op => ¬ Recreates install op) start ops

/-- One call of a run that neither recreates a task nor draws a used id. -/
theorem boardStep_stands (checks : WireChecks) {install : Install ρ} {op : BoardOp ρ}
    (h : Exclusive install.store) (hfresh : FreshPlaceholders install op)
    (hno : ¬ Recreates install op) :
    Stands install.store (boardStep checks install op).1.store := by
  cases op with
  | write ctx mutate =>
    obtain ⟨hexclusive, htombs⟩ := write_stands checks ctx mutate h
    exact ⟨hexclusive.mpr hno, htombs⟩
  | localField ctx taskId change => exact exclusive_mutateTaskLocalField h taskId change
  | page ctx link now rows =>
    unfold boardStep
    dsimp only
    split
    · rename_i outcome happly
      exact (applyTaskRows_stands h hfresh happly).1
    · exact stands_self h

/-- The end of a run that recreates nothing: it is exclusive, and holds every tombstone
that the run started with. -/
theorem stands_after {checks : WireChecks} {start : Install ρ} {ops : List (BoardOp ρ)}
    (hstart : Exclusive start.store) (hfresh : FreshRun checks start ops)
    (hno : NoRecreation checks start ops) :
    Stands start.store (Runs.after (boardStep checks) start ops).store := by
  refine Runs.after_of_everyCall (P := fun install : Install ρ => Stands start.store install.store)
    (Q := fun install op => FreshPlaceholders install op ∧ ¬ Recreates install op)
    ?_ (stands_self hstart) (fun pre op post hops => ⟨hfresh pre op post hops, hno pre op post hops⟩)
  intro install op hinstall hop
  obtain ⟨hexclusive, htombs⟩ := boardStep_stands checks hinstall.1 hop.1 hop.2
  exact ⟨hexclusive, fun id hid => htombs id (hinstall.2 id hid)⟩

/-- The call is an applied page with a deletion row of `id` in a shared project. -/
def DeletesByPage (checks : WireChecks) (install : Install ρ) (id : String) :
    BoardOp ρ → Prop
  | .page ctx link now rows =>
    (∃ changed, (boardStep checks install (.page ctx link now rows)).2 = .applied ⟨changed, none⟩) ∧
      ∃ gone, .gone gone ∈ rows ∧ gone.id = id ∧ gone.project ∈ link.projects ∧
        gone.project ∈ ctx.linked
  | _ => False

theorem isTombstone_of_deletesByPage {checks : WireChecks} {install : Install ρ} {id : String}
    {op : BoardOp ρ} (hexclusive : Exclusive install.store) (hfresh : FreshPlaceholders install op)
    (h : DeletesByPage checks install id op) :
    (boardStep checks install op).1.store.companion.isTombstone id = true := by
  cases op with
  | write ctx mutate => exact h.elim
  | localField ctx taskId change => exact h.elim
  | page ctx link now rows =>
    obtain ⟨⟨changed, hanswer⟩, gone, hmem, rfl, hlink, hlinked⟩ := h
    unfold boardStep at hanswer ⊢
    dsimp only at hanswer ⊢
    split
    · rename_i outcome happly
      simp only [happly, Answer.applied.injEq] at hanswer
      exact (applyTaskRows_stands hexclusive hfresh happly).2 (hanswer ▸ rfl) gone hmem hlink hlinked
    · rename_i happly
      simp [happly] at hanswer

/-- **Deletion is terminal unless a local write recreates a deleted task.**  The states of
a run hold no task beside its tombstone exactly when no local write of the run creates a
task under an id that holds a tombstone; and then an id that holds a tombstone, or whose
deletion row a page brings, whatever other rows of the task came before, beside or after
it, ends the run with its tombstone and without a task. -/
theorem deletion_terminal_iff (checks : WireChecks) (start : Install ρ)
    (hstart : Exclusive start.store) (ops : List (BoardOp ρ))
    (hfresh : FreshRun checks start ops) :
    ((∀ pre post, ops = pre ++ post → Exclusive (Runs.after (boardStep checks) start pre).store) ↔
        NoRecreation checks start ops) ∧
      (NoRecreation checks start ops →
        ∀ pre op post, ops = pre ++ op :: post → ∀ id,
          (Runs.after (boardStep checks) start pre).store.companion.isTombstone id = true ∨
              DeletesByPage checks (Runs.after (boardStep checks) start pre) id op →
            (Runs.after (boardStep checks) start ops).store.companion.isTombstone id = true ∧
              (Runs.after (boardStep checks) start ops).store.tasks.has id = false) := by
  refine ⟨⟨?_, ?_⟩, ?_⟩
  · rintro hall pre op post rfl hrecreates
    have hbefore := hall pre (op :: post) rfl
    have hafter := hall (pre ++ [op]) post (by simp)
    rw [Runs.after_concat] at hafter
    cases op with
    | write ctx mutate => exact (write_stands checks ctx mutate hbefore).1.mp hafter hrecreates
    | localField ctx taskId change => exact hrecreates
    | page ctx link now rows => exact hrecreates
  · rintro hno pre post rfl
    exact (stands_after hstart hfresh.front hno.front).1
  · rintro hno pre op post rfl id hid
    have hpre := (stands_after hstart hfresh.front hno.front).1
    have hop := boardStep_stands checks hpre (hfresh pre op post rfl) (hno pre op post rfl)
    have htomb : (boardStep checks (Runs.after (boardStep checks) start pre) op).1.store.companion.isTombstone
        id = true := by
      rcases hid with htomb | hdeletes
      · exact hop.2 id htomb
      · exact isTombstone_of_deletesByPage hpre (hfresh pre op post rfl) hdeletes
    have hsplit : pre ++ op :: post = (pre ++ [op]) ++ post := by simp
    rw [hsplit] at hfresh hno ⊢
    have hfresh' := hfresh.back
    have hno' := hno.back
    rw [Runs.after_concat] at hfresh' hno'
    obtain ⟨hend, htombs⟩ := stands_after hop.1 hfresh' hno'
    rw [Runs.after_append, Runs.after_concat]
    exact ⟨htombs id htomb, hend id (htombs id htomb)⟩

/-! ### A recreated task -/

end Deletion

section Recreated

/-- A row bound that accepts everything. -/
def anyRow : WireChecks := ⟨fun _ => 0, fun _ => true⟩

def sharedProject : String := "repo-0123456789abcdef0123456789abcdef"

/-- A random task id. -/
def sharedTaskId : String := "11111111-1111-4111-8111-111111111111"

/-- The deterministic id of a quarantine notice. -/
def noticeId : String := "01234567-89ab-8cde-8123-456789abcdef"

/-- Writes of an install that shares `sharedProject`, with the clock at `now`. -/
def sharing (now : Int) : WriteContext Unit where
  linked := [sharedProject]
  self := ⟨"aaaaaaaa-0000-4000-8000-000000000000", "aaaaaaaa"⟩
  now := fun _ => now
  settle := fun _ _ => .ok ()
  lostMemberships := fun _ _ => .ok []
  showsOnBoard := fun _ => true

/-- A task as a local write creates it. -/
def localTask (id text : String) (now : Instant) : BoardTask Unit where
  id := id
  project := sharedProject
  status := .inbox
  text := text
  details := none
  chosen := false
  color := none
  icon := none
  priority := none
  placement := .unplaced
  pos := none
  workLinks := none
  machine := none
  handover := none
  ownReview := none
  prototypeReviewReplica := none
  board := none
  boardAutoHidden := false
  boardChoice := false
  findingKey := none
  proactive := false
  createdAt := now
  updatedAt := now
  sync := none
  rest := ()

/-- A local write that adds a task. -/
def creates (task : BoardTask Unit) (now : Int) : BoardOp Unit :=
  .write (sharing now) (fun tasks => .ok (some (tasks.set task)))

/-- A local write that deletes a task. -/
def deletes (id : String) (now : Int) : BoardOp Unit :=
  .write (sharing now) (fun tasks => .ok (some (tasks.delete id)))

def emptyInstall : Install Unit := ⟨emptyStore Unit, Table.empty⟩

def quarantineNotice : BoardTask Unit :=
  localTask noticeId "Structured host startup quarantine" ⟨"1970-01-01T00:00:01.000Z", some 1000⟩

/-- **A recreated task stands beside its tombstone.**  The notice of a quarantined row has
a deterministic id: it is created, deleted by the operator, and created again. -/
theorem recreated_beside_tombstone :
    let run := [creates quarantineNotice 1000, deletes noticeId 2000, creates quarantineNotice 3000]
    let store := (Runs.after (boardStep anyRow) emptyInstall run).store
    store.tasks.has noticeId = true ∧ store.companion.isTombstone noticeId = true := by
  decide

/-- The link to the other install. -/
def peerLink : ApplyLink :=
  ⟨"peer:1", "bbbbbbbb-0000-4000-8000-000000000000", "bbbbbbbb", [sharedProject]⟩

/-- A page of the other install. -/
def receives (rows : List WireRow) (now : Int) : BoardOp Unit :=
  .page (sharing now) peerLink now rows

def noticeGone : WireGone := ⟨noticeId, sharedProject, ⟨2000, 0, "bbbbbbbb"⟩⟩

/-- The peer's deletion of a task that was created here, applied. -/
theorem deletion_terminal_by_page :
    let run := [creates quarantineNotice 1000, receives [.gone noticeGone] 3000]
    let store := (Runs.after (boardStep anyRow) emptyInstall run).store
    store.companion.isTombstone noticeId = true ∧ store.tasks.has noticeId = false := by
  have hstart : Exclusive emptyInstall.store := by
    intro id hid
    simp [emptyInstall, emptyStore, emptyCompanion, Companion.isTombstone, Table.has] at hid
  have hcreate : ¬ Recreates emptyInstall (creates quarantineNotice 1000) := by
    rintro ⟨tasks, settled, -, -, task, -, hid⟩
    simp [emptyInstall, emptyStore, emptyCompanion, Companion.isTombstone, Table.has] at hid
  have hfresh : FreshRun anyRow emptyInstall
      [creates quarantineNotice 1000, receives [.gone noticeGone] 3000] := by
    refine Runs.everyCall_cons trivial (Runs.everyCall_cons ?_ (Runs.everyCall_nil _ _))
    intro tasks task memberships hlost id text createdAt rest hmem
    cases hlost
    simp at hmem
  have hno : NoRecreation anyRow emptyInstall
      [creates quarantineNotice 1000, receives [.gone noticeGone] 3000] :=
    Runs.everyCall_cons hcreate (Runs.everyCall_cons (fun h => h) (Runs.everyCall_nil _ _))
  have hdeletes : DeletesByPage anyRow
      (Runs.after (boardStep anyRow) emptyInstall [creates quarantineNotice 1000]) noticeId
      (receives [.gone noticeGone] 3000) :=
    ⟨⟨1, by decide⟩, noticeGone, by decide, rfl, by decide, by decide⟩
  exact (deletion_terminal_iff anyRow emptyInstall hstart _ hfresh).2 hno
    [creates quarantineNotice 1000] _ [] rfl noticeId (Or.inr hdeletes)

end Recreated

end Delegatus.LinkedBoards
