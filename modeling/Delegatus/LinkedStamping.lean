import Delegatus.LinkedStore
import Mathlib.Data.List.Forall2

/-!
# What the stamping pass does to a write

For every row of a write the pass leaves everything but `machine` and `sync`, and each
group's stamp is one of four: the stamp the writer set, a stamp the writer asked to keep,
a fresh stamp above everything the project's watermark covered when the write began, or
the stamp the row read before (`GroupStamp`).  A row of a linked project that is gone
leaves a tombstone; no tombstone is lost.
-/

namespace Delegatus.LinkedBoards

open LinkStamps

section Stamping

variable {ρ : Type}

/-! ### Stamps under the watermark -/

theorem foldl_max_ge {α : Type} (f : Stamp → α → Stamp) (hf : ∀ newest a, newest ≤ f newest a)
    (list : List α) (start : Stamp) : start ≤ list.foldl f start := by
  induction list generalizing start with
  | nil => exact le_refl start
  | cons a rest ih => exact (hf start a).trans (ih (f start a))

/-- A group's stamp is at most the newest of its task. -/
theorem effectiveStamp_le_newestStamp (task : BoardTask ρ) (group : TaskSyncGroup)
    (pfx : String) : effectiveStamp task group pfx ≤ newestStamp task pfx := by
  let f := fun (newest : Stamp) (group : TaskSyncGroup) =>
    if effectiveStamp task group pfx > newest then effectiveStamp task group pfx else newest
  have hf : ∀ newest group, newest ≤ f newest group := by
    intro newest group
    by_cases h : effectiveStamp task group pfx > newest
    · simp only [f, if_pos h]
      exact h.le
    · simp only [f, if_neg h]
      exact le_refl newest
  have hmem : ∀ (list : List TaskSyncGroup) (start : Stamp), group ∈ list →
      effectiveStamp task group pfx ≤ list.foldl f start := by
    intro list
    induction list with
    | nil => simp
    | cons first rest ih =>
      intro start hgroup
      rcases List.mem_cons.mp hgroup with rfl | hgroup
      · refine le_trans ?_ (foldl_max_ge f hf rest (f start group))
        by_cases h : effectiveStamp task group pfx > start
        · simp only [f, if_pos h]
          exact le_refl _
        · simp only [f, if_neg h]
          exact not_lt.mp h
      · exact ih (f start first) hgroup
  exact hmem TASK_SYNC_GROUPS _ (mem_TASK_SYNC_GROUPS group)

theorem AtMost.trans {a b : Stamp} {mark : Option Stamp} (hab : a ≤ b) (h : AtMost b mark) :
    AtMost a mark := by
  obtain ⟨held, rfl, hle⟩ := h
  exact atMost_some (hab.trans hle)

theorem atMost_newestOf_mark (self : Self) (project : String) {stamp : Stamp}
    {mark : Option Stamp} (tasks : List (BoardTask ρ)) (h : AtMost stamp mark) :
    AtMost stamp (newestOf self project mark tasks) := by
  induction tasks generalizing mark with
  | nil => exact h
  | cons task rest ih =>
    apply ih
    by_cases hproject : task.project = project
    · simp only [if_pos hproject]
      exact atMost_maxStamp_left h
    · simp only [if_neg hproject]
      exact h

/-- Every stamp of a task of the project is at most the newest of the tasks. -/
theorem atMost_newestOf (self : Self) (project : String) (mark : Option Stamp)
    {tasks : List (BoardTask ρ)} {task : BoardTask ρ} (hmem : task ∈ tasks)
    (hproject : task.project = project) (group : TaskSyncGroup) :
    AtMost (effectiveStamp task group self.pfx) (newestOf self project mark tasks) := by
  induction tasks generalizing mark with
  | nil => simp at hmem
  | cons first rest ih =>
    rcases List.mem_cons.mp hmem with rfl | hmem
    · refine atMost_newestOf_mark self project rest ?_
      simp only [if_pos hproject]
      exact atMost_maxStamp_right
        (atMost_some (effectiveStamp_le_newestStamp task group self.pfx))
    · exact ih (if first.project = project then _ else mark) hmem

/-- A stamp that the watermark of a project covers: a committed row of the project reads
it or a larger one, or it is at most the project's floor. -/
def Covered (self : Self) (committed : List (BoardTask ρ)) (companion : Companion)
    (project : String) (stamp : Stamp) : Prop :=
  (∃ task ∈ committed, task.project = project ∧
      ∃ group, stamp ≤ effectiveStamp task group self.pfx) ∨
    AtMost stamp (companion.floorOf project)

theorem Covered.atMost_watermark {self : Self} {committed : List (BoardTask ρ)}
    {companion : Companion} {project : String} {stamp : Stamp}
    (h : Covered self committed companion project stamp) (tasks : List (BoardTask ρ)) :
    AtMost stamp (projectWatermark self committed tasks companion project) := by
  rcases h with ⟨task, hmem, hproject, group, hle⟩ | hfloor
  · have hcommitted := atMost_newestOf self project none hmem hproject group
    exact atMost_maxStamp_left
      (atMost_newestOf_mark self project tasks (AtMost.trans hle hcommitted))
  · exact atMost_maxStamp_right hfloor

/-- What a write minted so far is above everything covered. -/
def MarksAbove (self : Self) (committed : List (BoardTask ρ)) (companion : Companion)
    (marks : Marks) : Prop :=
  ∀ held ∈ marks.rows, ∀ stamp, Covered self committed companion held.project stamp →
    stamp ≤ held.mark

theorem marksAbove_empty (self : Self) (committed : List (BoardTask ρ)) (companion : Companion) :
    MarksAbove self committed companion Table.empty := by
  intro held hheld
  simp at hheld

theorem fresh_pfx (ctx : WriteContext ρ) (committed tasks : List (BoardTask ρ))
    (companion : Companion) (marks : Marks) (project : String) (minting : Minting) :
    (fresh ctx committed tasks companion marks project minting).2.pfx = ctx.self.pfx :=
  nextStamp_pfx _ _ _

/-- **A fresh stamp is above everything the watermark covers.** -/
theorem lt_fresh {ctx : WriteContext ρ} {committed : List (BoardTask ρ)} {companion : Companion}
    {marks : Marks} (hmarks : MarksAbove ctx.self committed companion marks)
    (tasks : List (BoardTask ρ)) {project : String} (minting : Minting) {stamp : Stamp}
    (h : Covered ctx.self committed companion project stamp) :
    stamp < (fresh ctx committed tasks companion marks project minting).2 := by
  unfold fresh
  dsimp only
  cases hget : marks.get? project with
  | none => exact (h.atMost_watermark tasks).lt_nextStamp _ _
  | some held =>
    obtain ⟨hmem, hproject⟩ := Table.get?_eq_some.mp hget
    have hle : stamp ≤ held.mark := hmarks held hmem stamp (hproject ▸ h)
    exact (atMost_some hle).lt_nextStamp _ _

theorem marksAbove_fresh {ctx : WriteContext ρ} {committed : List (BoardTask ρ)}
    {companion : Companion} {marks : Marks}
    (hmarks : MarksAbove ctx.self committed companion marks) (tasks : List (BoardTask ρ))
    (project : String) (minting : Minting) :
    MarksAbove ctx.self committed companion
      (fresh ctx committed tasks companion marks project minting).1 := by
  intro held hheld stamp hstamp
  rcases Table.mem_set.mp hheld with rfl | ⟨hold, -⟩
  · exact (lt_fresh hmarks tasks minting hstamp).le
  · exact hmarks held hold stamp hstamp

/-! ### One row -/

/-- The stamp that the pass leaves at a group of `task`; `prior` is the row's snapshot. -/
inductive GroupStamp (ctx : WriteContext ρ) (preserved : List (String × TaskSyncGroup))
    (committed : List (BoardTask ρ)) (companion : Companion) (prior : Option (BoardTask ρ))
    (task : BoardTask ρ) (group : TaskSyncGroup) : Option Stamp → Prop where
  /-- The writer set it. -/
  | kept (stamp : Stamp) (hset : storedStamp task group = some stamp)
      (hnew : prior.bind (fun prior => storedStamp prior group) ≠ some stamp) :
      GroupStamp ctx preserved committed companion prior task group (some stamp)
  /-- The writer asked to keep it. -/
  | preserved (held : BoardTask ρ) (hprior : prior = some held)
      (hsame : storedStamp task group = storedStamp held group)
      (hasked : (task.id, group) ∈ preserved) :
      GroupStamp ctx preserved committed companion prior task group (storedStamp task group)
  /-- The row is new or the group's content changed. -/
  | minted (stamp : Stamp) (hpfx : stamp.pfx = ctx.self.pfx)
      (habove : ∀ seen, Covered ctx.self committed companion task.project seen → seen < stamp)
      (hchanged : ∀ held, prior = some held → groupDigest held group ≠ groupDigest task group)
      (hunset : storedStamp task group = none ∨
        storedStamp task group = prior.bind (fun prior => storedStamp prior group)) :
      GroupStamp ctx preserved committed companion prior task group (some stamp)
  /-- The group's content is what it was. -/
  | pinned (held : BoardTask ρ) (hprior : prior = some held)
      (hcontent : groupDigest held group = groupDigest task group)
      (hunset : storedStamp task group = none ∨ storedStamp task group = storedStamp held group) :
      GroupStamp ctx preserved committed companion prior task group
        (some (effectiveStamp held group ctx.self.pfx))

/-- One group of the pass: its stamp, and no other group's. -/
theorem stampGroup_spec {ctx : WriteContext ρ} (preserved : List (String × TaskSyncGroup))
    {committed : List (BoardTask ρ)} (tasks : List (BoardTask ρ)) {companion : Companion}
    (prior : Option (BoardTask ρ)) (task : BoardTask ρ) {acc : RowStamping}
    (hmarks : MarksAbove ctx.self committed companion acc.marks) {group : TaskSyncGroup}
    (hread : acc.s group = storedStamp task group) :
    let next := stampGroup ctx preserved committed tasks companion prior task acc group
    MarksAbove ctx.self committed companion next.marks ∧
      GroupStamp ctx preserved committed companion prior task group (next.s group) ∧
      ∀ other, other ≠ group → next.s other = acc.s other := by
  intro next
  have hfresh := marksAbove_fresh hmarks tasks task.project (.group task.id group)
  have hmint : ∀ seen, Covered ctx.self committed companion task.project seen →
      seen < (fresh ctx committed tasks companion acc.marks task.project
        (.group task.id group)).2 :=
    fun seen hseen => lt_fresh hmarks tasks _ hseen
  have hminted := fresh_pfx ctx committed tasks companion acc.marks task.project
    (.group task.id group)
  cases prior with
  | none =>
    by_cases hset : (acc.s group).isSome
    · have hnext : next = acc := if_pos hset
      obtain ⟨stamp, hstamp⟩ := Option.isSome_iff_exists.mp hset
      refine ⟨hnext ▸ hmarks, ?_, fun other _ => by rw [hnext]⟩
      rw [hnext, hstamp]
      exact .kept stamp (hread ▸ hstamp) (by simp)
    · have hnext : next = _ := if_neg hset
      rw [hnext]
      refine ⟨hfresh, ?_, fun other hother => Function.update_of_ne hother _ _⟩
      simp only [Function.update_self]
      exact .minted _ hminted hmint (by simp) (Or.inl (hread ▸ Option.not_isSome_iff_eq_none.mp hset))
  | some held =>
    by_cases hpreserved : acc.s group = storedStamp held group ∧ (task.id, group) ∈ preserved
    · have hnext : next = acc := if_pos hpreserved
      refine ⟨hnext ▸ hmarks, ?_, fun other _ => by rw [hnext]⟩
      rw [hnext, hread]
      exact .preserved held rfl (hread ▸ hpreserved.1) hpreserved.2
    · by_cases hset : (acc.s group).isSome ∧ acc.s group ≠ storedStamp held group
      · have hnext : next = acc := (if_neg hpreserved).trans (if_pos hset)
        obtain ⟨stamp, hstamp⟩ := Option.isSome_iff_exists.mp hset.1
        refine ⟨hnext ▸ hmarks, ?_, fun other _ => by rw [hnext]⟩
        rw [hnext, hstamp]
        refine .kept stamp (hread ▸ hstamp) ?_
        intro hprior
        exact hset.2 (hstamp.trans hprior.symm)
      · have hunset : storedStamp task group = none ∨
            storedStamp task group = storedStamp held group := by
          rw [← hread]
          cases hs : acc.s group with
          | none => exact Or.inl rfl
          | some stamp =>
            right
            by_contra hne
            exact hset ⟨by simp [hs], fun heq => hne (hs ▸ heq)⟩
        by_cases hchanged : groupDigest held group ≠ groupDigest task group
        · have hnext : next = _ :=
            (if_neg hpreserved).trans ((if_neg hset).trans (if_pos hchanged))
          rw [hnext]
          refine ⟨hfresh, ?_, fun other hother => Function.update_of_ne hother _ _⟩
          simp only [Function.update_self]
          refine .minted _ hminted hmint ?_ hunset
          intro other hother
          exact Option.some.inj hother ▸ hchanged
        · have hnext : next = _ :=
            (if_neg hpreserved).trans ((if_neg hset).trans (if_neg hchanged))
          rw [hnext]
          refine ⟨hmarks, ?_, fun other hother => Function.update_of_ne hother _ _⟩
          simp only [Function.update_self]
          have heffective : (acc.s group).getD (effectiveStamp held group ctx.self.pfx) =
              effectiveStamp held group ctx.self.pfx := by
            rw [hread]
            rcases hunset with hnone | hheld
            · rw [hnone]
              rfl
            · rw [hheld, effectiveStamp]
              unfold storedStamp
              cases held.sync.bind (fun sync => sync.s group) with
              | none => rfl
              | some stamp => rfl
          rw [heffective]
          exact .pinned held rfl (not_not.mp hchanged) hunset

/-- The fold over the groups stamps each of them once. -/
theorem stampGroups_spec {ctx : WriteContext ρ} (preserved : List (String × TaskSyncGroup))
    {committed : List (BoardTask ρ)} (tasks : List (BoardTask ρ)) {companion : Companion}
    (prior : Option (BoardTask ρ)) (task : BoardTask ρ) (groups : List TaskSyncGroup)
    (hnodup : groups.Nodup) (acc : RowStamping)
    (hmarks : MarksAbove ctx.self committed companion acc.marks)
    (hread : ∀ group ∈ groups, acc.s group = storedStamp task group) :
    let out := groups.foldl (stampGroup ctx preserved committed tasks companion prior task) acc
    MarksAbove ctx.self committed companion out.marks ∧
      (∀ group ∈ groups,
        GroupStamp ctx preserved committed companion prior task group (out.s group)) ∧
      ∀ group, group ∉ groups → out.s group = acc.s group := by
  induction groups generalizing acc with
  | nil => exact ⟨hmarks, by simp, fun _ _ => rfl⟩
  | cons first rest ih =>
    obtain ⟨hfirst, hrest⟩ := List.nodup_cons.mp hnodup
    obtain ⟨hmarks', hstamp, hothers⟩ := stampGroup_spec preserved tasks prior task hmarks
      (hread first List.mem_cons_self)
    have hread' : ∀ group ∈ rest, (stampGroup ctx preserved committed tasks companion prior
        task acc first).s group = storedStamp task group := by
      intro group hgroup
      rw [hothers group (fun heq => hfirst (heq ▸ hgroup))]
      exact hread group (List.mem_cons_of_mem _ hgroup)
    obtain ⟨hout, hall, hkept⟩ := ih hrest _ hmarks' hread'
    refine ⟨hout, ?_, ?_⟩
    · intro group hgroup
      rcases List.mem_cons.mp hgroup with rfl | hgroup
      · rw [List.foldl_cons, hkept group hfirst]
        exact hstamp
      · exact hall group hgroup
    · intro group hgroup
      rw [List.foldl_cons, hkept group (fun h => hgroup (List.mem_cons_of_mem _ h))]
      exact hothers group (fun heq => hgroup (heq ▸ List.mem_cons_self))

/-- What the pass makes of a row. -/
inductive RowStamp (ctx : WriteContext ρ) (preserved : List (String × TaskSyncGroup))
    (committed : List (BoardTask ρ)) (companion : Companion) (prior : Option (BoardTask ρ))
    (task : BoardTask ρ) : BoardTask ρ → Prop where
  | untouched (h : task.project ∉ ctx.linked ∨ prior = some task) :
      RowStamp ctx preserved committed companion prior task task
  | stamped (s : TaskSyncGroup → Option Stamp) (o : String) (hlinked : task.project ∈ ctx.linked)
      (hs : ∀ group, GroupStamp ctx preserved committed companion prior
        (ownedHere ctx.self task) group (s group)) :
      RowStamp ctx preserved committed companion prior task
        { ownedHere ctx.self task with sync := some ⟨s, o⟩ }

theorem RowStamp.id_eq {ctx : WriteContext ρ} {preserved : List (String × TaskSyncGroup)}
    {committed : List (BoardTask ρ)} {companion : Companion} {prior : Option (BoardTask ρ)}
    {task row : BoardTask ρ} (h : RowStamp ctx preserved committed companion prior task row) :
    row.id = task.id := by
  cases h with
  | untouched _ => rfl
  | stamped _ _ _ _ => rfl

theorem RowStamp.project_eq {ctx : WriteContext ρ} {preserved : List (String × TaskSyncGroup)}
    {committed : List (BoardTask ρ)} {companion : Companion} {prior : Option (BoardTask ρ)}
    {task row : BoardTask ρ} (h : RowStamp ctx preserved committed companion prior task row) :
    row.project = task.project := by
  cases h with
  | untouched _ => rfl
  | stamped _ _ _ _ => rfl

variable [DecidableEq ρ]

theorem stampRow_spec {ctx : WriteContext ρ} (preserved : List (String × TaskSyncGroup))
    {committed : List (BoardTask ρ)} (tasks : List (BoardTask ρ)) {companion : Companion}
    (prior : Option (BoardTask ρ)) {marks : Marks}
    (hmarks : MarksAbove ctx.self committed companion marks) (task : BoardTask ρ) :
    let out := stampRow ctx preserved committed tasks companion prior marks task
    MarksAbove ctx.self committed companion out.1 ∧
      RowStamp ctx preserved committed companion prior task out.2 := by
  intro out
  by_cases hskip : task.project ∉ ctx.linked ∨ prior = some task
  · have hout : out = (marks, task) := if_pos hskip
    rw [hout]
    exact ⟨hmarks, .untouched hskip⟩
  · have hout : out = _ := if_neg hskip
    rw [hout]
    have hlinked : task.project ∈ ctx.linked := by
      by_contra hnot
      exact hskip (Or.inl hnot)
    obtain ⟨hmarks', hall, -⟩ := stampGroups_spec preserved tasks prior (ownedHere ctx.self task)
      TASK_SYNC_GROUPS nodup_TASK_SYNC_GROUPS
      ⟨marks, storedStamp (ownedHere ctx.self task), false⟩ hmarks (fun _ _ => rfl)
    exact ⟨hmarks', .stamped _ _ hlinked (fun group => hall group (mem_TASK_SYNC_GROUPS group))⟩

/-! ### The rows of a write -/

theorem stampRows_spec {ctx : WriteContext ρ} (preserved : List (String × TaskSyncGroup))
    (before : Tasks ρ) (companion : Companion) (tasks : List (BoardTask ρ)) (marks : Marks)
    (done : List (BoardTask ρ)) (hmarks : MarksAbove ctx.self before.rows companion marks) :
    let out := stampRows ctx preserved before companion marks done tasks
    MarksAbove ctx.self before.rows companion out.1 ∧
      ∃ stamped, out.2 = done ++ stamped ∧
        List.Forall₂ (fun task row => RowStamp ctx preserved before.rows companion
          (snapshotOf ctx before task.id) task row) tasks stamped := by
  induction tasks generalizing marks done with
  | nil => exact ⟨hmarks, [], (List.append_nil done).symm, .nil⟩
  | cons task rest ih =>
    obtain ⟨hmarks', hrow⟩ := stampRow_spec preserved (done ++ task :: rest)
      (snapshotOf ctx before task.id) hmarks task
    obtain ⟨hout, stamped, hstamped, hall⟩ := ih _ (done ++ [_]) hmarks'
    refine ⟨hout, _ :: stamped, ?_, .cons hrow hall⟩
    rw [stampRows, hstamped, List.append_assoc, List.singleton_append]

/-! ### Deleted rows -/

omit [DecidableEq ρ] in
theorem isTombstone_buryRow (ctx : WriteContext ρ) (committed tasks : List (BoardTask ρ))
    (acc : Marks × Companion) (prior : BoardTask ρ) (id : String) :
    (buryRow ctx committed tasks acc prior).2.isTombstone id = true ↔
      acc.2.isTombstone id = true ∨
        (prior.id = id ∧ prior.project ∈ ctx.linked ∧ ∀ task ∈ tasks, task.id ≠ id) := by
  by_cases hskip : prior.project ∉ ctx.linked ∨ (∃ task ∈ tasks, task.id = prior.id) ∨
      acc.2.isTombstone prior.id
  · have hbury : buryRow ctx committed tasks acc prior = acc := if_pos hskip
    rw [hbury]
    refine ⟨Or.inl, ?_⟩
    rintro (htomb | ⟨rfl, hlinked, habsent⟩)
    · exact htomb
    · rcases hskip with hnot | ⟨task, hmem, hid⟩ | htomb
      · exact absurd hlinked hnot
      · exact absurd hid (habsent task hmem)
      · exact htomb
  · have hbury : buryRow ctx committed tasks acc prior = _ := if_neg hskip
    rw [hbury]
    push Not at hskip
    dsimp only
    rw [Companion.isTombstone, raiseFloor_tombstones, Table.has_set]
    constructor
    · rintro (rfl | htomb)
      · exact Or.inr ⟨rfl, hskip.1, fun task hmem => hskip.2.1 task hmem⟩
      · exact Or.inl htomb
    · rintro (htomb | ⟨rfl, -, -⟩)
      · exact Or.inr htomb
      · exact Or.inl rfl

omit [DecidableEq ρ] in
/-- **Deleted rows of linked projects leave a tombstone**, and no tombstone is lost. -/
theorem isTombstone_buryRows (ctx : WriteContext ρ) (committed tasks : List (BoardTask ρ))
    (priors : List (BoardTask ρ)) (acc : Marks × Companion) (id : String) :
    (priors.foldl (buryRow ctx committed tasks) acc).2.isTombstone id = true ↔
      acc.2.isTombstone id = true ∨
        ∃ prior ∈ priors, prior.id = id ∧ prior.project ∈ ctx.linked ∧
          ∀ task ∈ tasks, task.id ≠ id := by
  induction priors generalizing acc with
  | nil => simp
  | cons first rest ih =>
    rw [List.foldl_cons, ih, isTombstone_buryRow, or_assoc]
    simp only [List.exists_mem_cons_iff]

omit [DecidableEq ρ] in
/-- The pass over the deleted rows leaves the stubs. -/
theorem stubs_buryRows (ctx : WriteContext ρ) (committed tasks : List (BoardTask ρ))
    (priors : List (BoardTask ρ)) (acc : Marks × Companion) :
    (priors.foldl (buryRow ctx committed tasks) acc).2.stubs = acc.2.stubs := by
  induction priors generalizing acc with
  | nil => rfl
  | cons first rest ih =>
    rw [List.foldl_cons, ih]
    unfold buryRow
    split
    · rfl
    · exact raiseFloor_stubs _ _ _

/-! ### A whole write -/

/-- What settling changes of a row. -/
def Settled (task settled : BoardTask ρ) : Prop :=
  ∃ rest proactive, settled = { task with rest := rest, proactive := proactive }

omit [DecidableEq ρ] in
/-- Content, stamps and time of a row are what they were before it was settled. -/
theorem Settled.reads {task settled : BoardTask ρ} (h : Settled task settled)
    (group : TaskSyncGroup) :
    groupDigest settled group = groupDigest task group ∧
      storedStamp settled group = storedStamp task group ∧
      settled.updatedAt = task.updatedAt ∧ settled.project = task.project ∧
      settled.id = task.id := by
  obtain ⟨rest, proactive, rfl⟩ := h
  cases group <;> exact ⟨rfl, rfl, rfl, rfl, rfl⟩

omit [DecidableEq ρ] in
theorem settleTask_ok {ctx : WriteContext ρ} {before : Tasks ρ} {task settled : BoardTask ρ}
    (h : settleTask ctx before task = .ok settled) : Settled task settled := by
  unfold settleTask at h
  cases hsettle : ctx.settle (before.get? task.id) task with
  | error error => simp [hsettle, Except.map] at h
  | ok rest =>
    simp only [hsettle, Except.map, Except.ok.injEq] at h
    exact ⟨rest, _, h.symm⟩

omit [DecidableEq ρ] in
theorem settleTasks_ok {ctx : WriteContext ρ} {before : Tasks ρ}
    {tasks settled : List (BoardTask ρ)} (h : settleTasks ctx before tasks = .ok settled) :
    List.Forall₂ Settled tasks settled := by
  induction tasks generalizing settled with
  | nil =>
    simp only [settleTasks, Except.ok.injEq] at h
    exact h ▸ .nil
  | cons task rest ih =>
    unfold settleTasks at h
    split at h
    · rename_i settledTask settledRest htask hrest
      simp only [Except.ok.injEq] at h
      exact h ▸ .cons (settleTask_ok htask) (ih hrest)
    · simp at h
    · simp at h

/-- What a write makes of a row that its callback returned. -/
def Committed (ctx : WriteContext ρ) (preserved : List (String × TaskSyncGroup))
    (before : Tasks ρ) (companion : Companion) (task row : BoardTask ρ) : Prop :=
  ∃ settled, Settled task settled ∧
    RowStamp ctx preserved before.rows companion (snapshotOf ctx before task.id) settled row

omit [DecidableEq ρ] in
theorem Committed.id_eq {ctx : WriteContext ρ} {preserved : List (String × TaskSyncGroup)}
    {before : Tasks ρ} {companion : Companion} {task row : BoardTask ρ}
    (h : Committed ctx preserved before companion task row) : row.id = task.id := by
  obtain ⟨settled, ⟨rest, proactive, rfl⟩, hrow⟩ := h
  exact hrow.id_eq

/-- **A committed write.**  Its rows correspond one to one to the rows the callback
returned, and its tombstones are those of the companion and of the rows it deleted. -/
theorem committedRows_ok {ctx : WriteContext ρ} {preserved : List (String × TaskSyncGroup)}
    {before tasks : Tasks ρ} {companion : Companion} {store : TaskStore ρ}
    (h : committedRows ctx preserved before tasks companion = .ok store) :
    List.Forall₂ (Committed ctx preserved before companion) tasks.rows store.tasks.rows ∧
      ∀ id, store.companion.isTombstone id = true ↔
        companion.isTombstone id = true ∨
          ∃ prior ∈ before.rows, prior.id = id ∧ prior.project ∈ ctx.linked ∧
            ∀ task ∈ tasks.rows, task.id ≠ id := by
  unfold committedRows at h
  cases hsettle : settleTasks ctx before tasks.rows with
  | error error => simp [hsettle, Except.map] at h
  | ok settled =>
    simp only [hsettle, Except.map, Except.ok.injEq] at h
    subst h
    have hsettled := settleTasks_ok hsettle
    obtain ⟨-, stamped, hrows, hstamped⟩ := stampRows_spec preserved before companion settled
      Table.empty [] (marksAbove_empty ctx.self before.rows companion)
    rw [List.nil_append] at hrows
    have hall : List.Forall₂ (Committed ctx preserved before companion) tasks.rows stamped := by
      clear hsettle hrows
      generalize tasks.rows = rows at hsettled ⊢
      induction hsettled generalizing stamped with
      | nil =>
        cases hstamped
        exact .nil
      | cons htask _ ih =>
        cases hstamped with
        | cons hrow hrest =>
          obtain ⟨rest, proactive, rfl⟩ := htask
          exact .cons ⟨_, ⟨rest, proactive, rfl⟩, hrow⟩ (ih _ hrest)
    have hids : stamped.map BoardTask.id = tasks.rows.map BoardTask.id := by
      clear hrows hstamped hsettled hsettle
      generalize tasks.rows = rows at hall
      induction hall with
      | nil => rfl
      | cons hrow _ ih => rw [List.map_cons, List.map_cons, hrow.id_eq, ih]
    have hnodup : (stamped.map BoardTask.id).Nodup := hids ▸ tasks.nodup
    dsimp only [stampLinkedRows]
    rw [hrows, Table.rows_ofList hnodup]
    refine ⟨hall, fun id => ?_⟩
    rw [isTombstone_buryRows]
    have habsent : (∀ task ∈ stamped, task.id ≠ id) ↔ ∀ task ∈ tasks.rows, task.id ≠ id := by
      have hleft : (∀ task ∈ stamped, task.id ≠ id) ↔ id ∉ stamped.map BoardTask.id := by
        simp
      have hright : (∀ task ∈ tasks.rows, task.id ≠ id) ↔ id ∉ tasks.rows.map BoardTask.id := by
        simp
      rw [hleft, hright, hids]
    simp only [habsent]

theorem stubs_committedRows {ctx : WriteContext ρ} {preserved : List (String × TaskSyncGroup)}
    {before tasks : Tasks ρ} {companion : Companion} {store : TaskStore ρ}
    (h : committedRows ctx preserved before tasks companion = .ok store) :
    store.companion.stubs = companion.stubs := by
  unfold committedRows at h
  cases hsettle : settleTasks ctx before tasks.rows with
  | error error => simp [hsettle, Except.map] at h
  | ok settled =>
    simp only [hsettle, Except.map, Except.ok.injEq] at h
    subst h
    exact stubs_buryRows ctx before.rows _ before.rows _

/-- The rows of a committed write, read by id. -/
theorem get?_committedRows {ctx : WriteContext ρ} {preserved : List (String × TaskSyncGroup)}
    {before tasks : Tasks ρ} {companion : Companion} {store : TaskStore ρ}
    (h : committedRows ctx preserved before tasks companion = .ok store) (id : String) :
    Option.Rel (Committed ctx preserved before companion) (tasks.get? id) (store.tasks.get? id) :=
  Table.get?_rel (fun _ _ hrow => hrow.id_eq) (committedRows_ok h).1 id

/-- What a linked write did that did not throw. -/
theorem mutateLinkedTasks_ok {τ : Type} {ctx : WriteContext ρ} {store store' : TaskStore ρ}
    {mutate : TaskStore ρ → Except String (Mutation ρ τ)} {result : τ}
    (h : mutateLinkedTasks ctx store mutate = .ok (store', result)) :
    ∃ outcome, mutate store = .ok outcome ∧
      ((outcome.tasks = none ∧ store'.tasks = store.tasks) ∨
        ∃ tasks, outcome.tasks = some tasks ∧
          committedRows ctx outcome.preserved store.tasks tasks outcome.companion = .ok store') := by
  unfold mutateLinkedTasks at h
  cases hmutate : mutate store with
  | error error => simp [hmutate] at h
  | ok outcome =>
    refine ⟨outcome, rfl, ?_⟩
    rw [hmutate] at h
    dsimp only at h
    cases htasks : outcome.tasks with
    | none =>
      rw [htasks] at h
      simp only [Except.ok.injEq, Prod.mk.injEq] at h
      exact Or.inl ⟨rfl, h.1 ▸ rfl⟩
    | some tasks =>
      rw [htasks] at h
      dsimp only at h
      cases hcommit : committedRows ctx outcome.preserved store.tasks tasks outcome.companion with
      | error error =>
        rw [hcommit] at h
        simp [Except.map] at h
      | ok committed =>
        rw [hcommit] at h
        simp only [Except.map, Except.ok.injEq, Prod.mk.injEq] at h
        exact Or.inr ⟨tasks, rfl, h.1 ▸ hcommit⟩

end Stamping

end Delegatus.LinkedBoards
