import Delegatus.LinkedApply

/-!
# What one live row does to a copy

The merge walks the groups of a row one by one, each on its own fields and its own stamp.
`GroupMerge` lists what can become of a group: the copy keeps it, the row's value and
stamp are taken, a conflicting reopen is answered with a fresh stamp over the row's, or
an untitled placeholder gets its title.  `mergeGroups_spec` states the whole merge in
these terms, and `mergeHeld_spec` what `mergeHeld` returns.
-/

namespace Delegatus.LinkedBoards

open LinkStamps

section Merge

variable {ρ : Type}

/-! ### Fields a merge touches -/

/-- Assigning a group changes the content of no other group. -/
theorem groupDigest_assignGroup_of_ne (target : BoardTask ρ) (row : WireTask)
    {group other : TaskSyncGroup} (h : other ≠ group) :
    groupDigest (assignGroup target row group) other = groupDigest target other := by
  cases group with
  | text => cases other <;> first | rfl | exact absurd rfl h
  | status => cases other <;> first | rfl | exact absurd rfl h
  | look => cases other <;> first | rfl | exact absurd rfl h
  | place => cases other <;> first | rfl | exact absurd rfl h
  | links => cases other <;> first | rfl | exact absurd rfl h
  | machine => cases other <;> first | rfl | exact absurd rfl h
  | handover => cases other <;> first | rfl | exact absurd rfl h

theorem prototypeReviewReplica_of_digest {a b : BoardTask ρ}
    (h : groupDigest a .text = groupDigest b .text) :
    prototypeReviewReplica a = prototypeReviewReplica b := by
  simp only [groupDigest, GroupContent.text.injEq] at h
  exact h.2.2.2

/-- The assigned content depends on the copy only through the replica it shows. -/
theorem groupDigest_assignGroup_congr {a b : BoardTask ρ} (row : WireTask)
    {group : TaskSyncGroup} (hown : a.ownReview = b.ownReview)
    (hcontent : groupDigest a group = groupDigest b group) :
    groupDigest (assignGroup a row group) group = groupDigest (assignGroup b row group) group := by
  cases group with
  | text =>
    have hshown := prototypeReviewReplica_of_digest hcontent
    simp only [prototypeReviewReplica, hown] at hshown
    simp only [groupDigest, assignGroup, prototypeReviewReplica, hown]
    cases hb : b.ownReview with
    | some _ => rfl
    | none =>
      simp only [hb] at hshown
      simp only [hshown]
  | status => rfl
  | look => rfl
  | place => rfl
  | links => rfl
  | machine => rfl
  | handover => rfl

/-- What no merge changes of a copy. -/
structure Framed (held merged : BoardTask ρ) : Prop where
  id : merged.id = held.id
  project : merged.project = held.project
  ownReview : merged.ownReview = held.ownReview
  findingKey : merged.findingKey = held.findingKey
  updatedAt : merged.updatedAt = held.updatedAt
  sync : merged.sync = held.sync
  boardChoice : merged.boardChoice = held.boardChoice
  rest : merged.rest = held.rest

theorem framed_refl (task : BoardTask ρ) : Framed task task :=
  ⟨rfl, rfl, rfl, rfl, rfl, rfl, rfl, rfl⟩

theorem Framed.trans {a b c : BoardTask ρ} (hab : Framed a b) (hbc : Framed b c) : Framed a c :=
  ⟨hbc.id.trans hab.id, hbc.project.trans hab.project, hbc.ownReview.trans hab.ownReview,
    hbc.findingKey.trans hab.findingKey, hbc.updatedAt.trans hab.updatedAt,
    hbc.sync.trans hab.sync, hbc.boardChoice.trans hab.boardChoice, hbc.rest.trans hab.rest⟩

theorem framed_assignGroup (target : BoardTask ρ) (row : WireTask) (group : TaskSyncGroup) :
    Framed target (assignGroup target row group) := by
  cases group <;> exact ⟨rfl, rfl, rfl, rfl, rfl, rfl, rfl, rfl⟩

theorem framed_boardFilled (self : Self) (link : ApplyLink) (held : BoardTask ρ) (row : WireTask) :
    Framed held (boardFilled self link held row) := by
  unfold boardFilled
  split
  · exact ⟨rfl, rfl, rfl, rfl, rfl, rfl, rfl, rfl⟩
  · exact framed_refl held

theorem groupDigest_boardFilled (self : Self) (link : ApplyLink) (held : BoardTask ρ)
    (row : WireTask) (group : TaskSyncGroup) :
    groupDigest (boardFilled self link held row) group = groupDigest held group := by
  unfold boardFilled
  split
  · cases group <;> rfl
  · rfl

/-! ### One group -/

section Groups

variable (ctx : WriteContext ρ) (link : ApplyLink) (tasks : List (BoardTask ρ))
variable (held : BoardTask ρ) (row : WireTask)

/-- The copy's stamp of a group. -/
def heldStamp (group : TaskSyncGroup) : Stamp := effectiveStamp held group ctx.self.pfx

/-- The row restores the title of the copy. -/
def Restores (group : TaskSyncGroup) : Prop :=
  group = .text ∧ restoresTitle held row (heldStamp ctx held .text) = true

/-- The copy keeps the group: the row is not newer, or may not write it. -/
def Refuses (group : TaskSyncGroup) : Prop :=
  (row.s group ≤ heldStamp ctx held group ∧ ¬ Restores ctx held row group) ∨
    (group = .machine ∧ held.machine.getD ctx.self.id ≠ link.install) ∨
    (group = .handover ∧ row.handover.any (fun install => install ≠ link.install) = true)

/-- The row reopens a finding that another open task of the project holds. -/
def Reopens (group : TaskSyncGroup) : Prop :=
  group = .status ∧ row.status ≠ .done ∧ reopenConflict tasks held = true

/-- What becomes of a group: its stamp and its content in the merged copy. -/
inductive GroupMerge (group : TaskSyncGroup) : Option Stamp → GroupContent → Prop where
  | kept (h : Refuses ctx link held row group) :
      GroupMerge group (some (heldStamp ctx held group)) (groupDigest held group)
  | taken (h : heldStamp ctx held group < row.s group)
      (hwins : ¬ Refuses ctx link held row group) :
      GroupMerge group (some (row.s group)) (groupDigest (assignGroup held row group) group)
  | reopened (h : Reopens tasks held row group) (hnewer : heldStamp ctx held group < row.s group) :
      GroupMerge group
        (some (nextStamp (some (row.s .status)) (ctx.now (.reopen row.id (row.s .status)))
          ctx.self.pfx))
        (groupDigest held group)
  | restored (h : Restores ctx held row group) (hsame : row.s group = heldStamp ctx held group) :
      GroupMerge group (some (row.s group))
        (.text row.text held.details true (prototypeReviewReplica held))

variable {ctx link tasks held row}

theorem GroupMerge.exists_stamp {group : TaskSyncGroup} {s : Option Stamp} {content : GroupContent}
    (h : GroupMerge ctx link tasks held row group s content) : ∃ stamp, s = some stamp := by
  cases h with
  | kept _ => exact ⟨_, rfl⟩
  | taken _ _ => exact ⟨_, rfl⟩
  | reopened _ _ => exact ⟨_, rfl⟩
  | restored _ _ => exact ⟨_, rfl⟩

theorem Restores.stamp_eq {group : TaskSyncGroup} (h : Restores ctx held row group) :
    row.s group = heldStamp ctx held group := by
  obtain ⟨rfl, h⟩ := h
  unfold restoresTitle at h
  simp only [Bool.and_eq_true, decide_eq_true_eq] at h
  exact h.1.1.1

variable (ctx link tasks held row) in
/-- **One group of the merge.** -/
theorem mergeGroup_cases (acc : Merging ρ) (group : TaskSyncGroup) :
    let next := mergeGroup ctx link tasks held row acc group
    (Refuses ctx link held row group ∧
        next = { acc with s := Function.update acc.s group (some (heldStamp ctx held group)) }) ∨
      ¬ Refuses ctx link held row group ∧ next.won = true ∧
        ((Reopens tasks held row group ∧ heldStamp ctx held group < row.s group ∧
            next.merged = acc.merged ∧ next.preserved = acc.preserved ∧
            next.s = Function.update acc.s group
              (some (nextStamp (some (row.s .status))
                (ctx.now (.reopen row.id (row.s .status))) ctx.self.pfx))) ∨
          (Restores ctx held row group ∧
            next.merged = { acc.merged with text := row.text, chosen := true } ∧
            next.s = Function.update acc.s group (some (row.s group))) ∨
          (¬ Restores ctx held row group ∧ heldStamp ctx held group < row.s group ∧
            next.merged = assignGroup acc.merged row group ∧ next.preserved = acc.preserved ∧
            next.s = Function.update acc.s group (some (row.s group)))) := by
  intro next
  have hrestores : (decide (group = .text) &&
      restoresTitle held row (effectiveStamp held group ctx.self.pfx)) = true ↔
        Restores ctx held row group := by
    constructor
    · intro h
      simp only [Bool.and_eq_true, decide_eq_true_eq] at h
      obtain ⟨rfl, h⟩ := h
      exact ⟨rfl, h⟩
    · rintro ⟨rfl, h⟩
      simpa [heldStamp] using h
  by_cases hold : row.s group ≤ effectiveStamp held group ctx.self.pfx ∧
      ¬ (decide (group = .text) &&
        restoresTitle held row (effectiveStamp held group ctx.self.pfx)) = true
  · have hnext : next = _ := if_pos hold
    rw [hrestores] at hold
    exact Or.inl ⟨Or.inl hold, hnext⟩
  · by_cases hmachine : group = .machine ∧ held.machine.getD ctx.self.id ≠ link.install
    · have hnext : next = _ := (if_neg hold).trans (if_pos hmachine)
      exact Or.inl ⟨Or.inr (Or.inl hmachine), hnext⟩
    · by_cases hhandover : group = .handover ∧
          row.handover.any (fun install => install ≠ link.install) = true
      · have hnext : next = _ := (if_neg hold).trans ((if_neg hmachine).trans (if_pos hhandover))
        exact Or.inl ⟨Or.inr (Or.inr hhandover), hnext⟩
      · have hnot : ¬ Refuses ctx link held row group := by
          rintro (hkept | hkept | hkept)
          · rw [hrestores] at hold
            exact hold hkept
          · exact hmachine hkept
          · exact hhandover hkept
        have hnewer : ¬ Restores ctx held row group → heldStamp ctx held group < row.s group := by
          intro hno
          rw [hrestores] at hold
          by_contra hle
          exact hold ⟨not_lt.mp hle, hno⟩
        refine Or.inr ⟨hnot, ?_⟩
        by_cases hreopen : group = .status ∧ row.status ≠ .done ∧ reopenConflict tasks held = true
        · have hnext : next = _ := (if_neg hold).trans ((if_neg hmachine).trans
            ((if_neg hhandover).trans (if_pos hreopen)))
          have hno : ¬ Restores ctx held row group := by
            rintro ⟨htext, -⟩
            rw [hreopen.1] at htext
            cases htext
          rw [hnext]
          exact ⟨rfl, Or.inl ⟨hreopen, hnewer hno, rfl, rfl, rfl⟩⟩
        · by_cases hrestore : (decide (group = .text) &&
              restoresTitle held row (effectiveStamp held group ctx.self.pfx)) = true
          · have hnext : next = _ := (if_neg hold).trans ((if_neg hmachine).trans
              ((if_neg hhandover).trans ((if_neg hreopen).trans (if_pos hrestore))))
            rw [hnext]
            exact ⟨rfl, Or.inr (Or.inl ⟨hrestores.mp hrestore, rfl, rfl⟩)⟩
          · have hnext : next = _ := (if_neg hold).trans ((if_neg hmachine).trans
              ((if_neg hhandover).trans ((if_neg hreopen).trans (if_neg hrestore))))
            have hno : ¬ Restores ctx held row group := fun h => hrestore (hrestores.mpr h)
            rw [hnext]
            exact ⟨rfl, Or.inr (Or.inr ⟨hno, hnewer hno, rfl, rfl, rfl⟩)⟩

/-! ### All the groups -/

/-- What the merge knows before it looks at `groups`. -/
structure MergeStart (held : BoardTask ρ) (groups : List TaskSyncGroup) (acc : Merging ρ) :
    Prop where
  frame : Framed held acc.merged
  content : ∀ group ∈ groups, groupDigest acc.merged group = groupDigest held group

/-- What the fold over `groups` did. -/
structure MergeDone (ctx : WriteContext ρ) (link : ApplyLink) (tasks : List (BoardTask ρ))
    (held : BoardTask ρ) (row : WireTask) (groups : List TaskSyncGroup) (acc out : Merging ρ) :
    Prop where
  frame : Framed held out.merged
  merged : ∀ group ∈ groups,
    GroupMerge ctx link tasks held row group (out.s group) (groupDigest out.merged group)
  others : ∀ group, group ∉ groups →
    out.s group = acc.s group ∧ groupDigest out.merged group = groupDigest acc.merged group
  won : out.won = true ↔ acc.won = true ∨ ∃ group ∈ groups, ¬ Refuses ctx link held row group
  idle : (∀ group ∈ groups, Refuses ctx link held row group) → out.merged = acc.merged
  preserved : (∀ group ∈ groups, ¬ Restores ctx held row group) → out.preserved = acc.preserved

/-- One more group. -/
theorem mergeGroup_spec {acc : Merging ρ} {group : TaskSyncGroup}
    (hstart : MergeStart held [group] acc) :
    MergeDone ctx link tasks held row [group] acc (mergeGroup ctx link tasks held row acc group) := by
  have hcontent := hstart.content group List.mem_cons_self
  rcases mergeGroup_cases ctx link tasks held row acc group with ⟨hrefuses, hnext⟩ | ⟨hwins, hwon, hcases⟩
  · rw [hnext]
    refine ⟨hstart.frame, ?_, ?_, ?_, fun _ => rfl, fun _ => rfl⟩
    · intro other hother
      obtain rfl := List.mem_singleton.mp hother
      simp only [Function.update_self]
      exact hcontent ▸ .kept hrefuses
    · intro other hother
      exact ⟨Function.update_of_ne (fun heq => hother (List.mem_singleton.mpr heq)) _ _, rfl⟩
    · simp [hrefuses]
  · generalize mergeGroup ctx link tasks held row acc group = next at hwon hcases
    have hwon' : next.won = true ↔
        acc.won = true ∨ ∃ other ∈ [group], ¬ Refuses ctx link held row other := by
      simp [hwon, hwins]
    have hidle : (∀ other ∈ [group], Refuses ctx link held row other) →
        next.merged = acc.merged :=
      fun hall => absurd (hall group List.mem_cons_self) hwins
    have hs : ∀ value, next.s = Function.update acc.s group value → ∀ other, other ∉ [group] →
        next.s other = acc.s other := by
      intro value hs other hother
      rw [hs]
      exact Function.update_of_ne (fun heq => hother (List.mem_singleton.mpr heq)) _ _
    rcases hcases with ⟨hreopens, hnewer, hmerged, hpreserved, hstamp⟩ |
      ⟨hrestores, hmerged, hstamp⟩ | ⟨hno, hnewer, hmerged, hpreserved, hstamp⟩
    · refine ⟨hmerged ▸ hstart.frame, ?_, ?_, hwon', hidle, fun _ => hpreserved⟩
      · intro other hother
        obtain rfl := List.mem_singleton.mp hother
        rw [hstamp, hmerged, Function.update_self, hcontent]
        exact .reopened hreopens hnewer
      · intro other hother
        exact ⟨hs _ hstamp other hother, by rw [hmerged]⟩
    · refine ⟨?_, ?_, ?_, hwon', hidle, fun hall => absurd hrestores (hall group List.mem_cons_self)⟩
      · rw [hmerged]
        exact hstart.frame.trans ⟨rfl, rfl, rfl, rfl, rfl, rfl, rfl, rfl⟩
      · intro other hother
        obtain rfl := List.mem_singleton.mp hother
        obtain rfl := hrestores.1
        rw [hstamp, hmerged, Function.update_self]
        simp only [groupDigest, GroupContent.text.injEq] at hcontent
        have hdigest : groupDigest { acc.merged with text := row.text, chosen := true } .text =
            .text row.text held.details true (prototypeReviewReplica held) := by
          simp only [groupDigest, GroupContent.text.injEq, true_and]
          exact ⟨hcontent.2.1, hcontent.2.2.2⟩
        rw [hdigest]
        exact .restored hrestores hrestores.stamp_eq
      · intro other hother
        refine ⟨hs _ hstamp other hother, ?_⟩
        rw [hmerged]
        have hne : other ≠ .text := fun heq =>
          hother (List.mem_singleton.mpr (heq.trans hrestores.1.symm))
        cases other <;> first | rfl | exact absurd rfl hne
    · refine ⟨?_, ?_, ?_, hwon', hidle, fun _ => hpreserved⟩
      · rw [hmerged]
        exact hstart.frame.trans (framed_assignGroup _ _ _)
      · intro other hother
        obtain rfl := List.mem_singleton.mp hother
        rw [hstamp, hmerged, Function.update_self,
          groupDigest_assignGroup_congr row hstart.frame.ownReview hcontent]
        exact .taken hnewer hwins
      · intro other hother
        refine ⟨hs _ hstamp other hother, ?_⟩
        rw [hmerged]
        exact groupDigest_assignGroup_of_ne _ _ (fun heq => hother (List.mem_singleton.mpr heq))

/-- The fold over the groups merges each of them once. -/
theorem mergeFold_spec {groups : List TaskSyncGroup} (hnodup : groups.Nodup) {acc : Merging ρ}
    (hstart : MergeStart held groups acc) :
    MergeDone ctx link tasks held row groups acc
      (groups.foldl (mergeGroup ctx link tasks held row) acc) := by
  induction groups generalizing acc with
  | nil =>
    exact ⟨hstart.frame, by simp, fun _ _ => ⟨rfl, rfl⟩, by simp, fun _ => rfl, fun _ => rfl⟩
  | cons first rest ih =>
    obtain ⟨hfirst, hrest⟩ := List.nodup_cons.mp hnodup
    have hone : MergeDone ctx link tasks held row [first] acc
        (mergeGroup ctx link tasks held row acc first) :=
      mergeGroup_spec ⟨hstart.frame, fun group hgroup => hstart.content group
        (List.mem_singleton.mp hgroup ▸ List.mem_cons_self)⟩
    have hnot : ∀ group ∈ rest, group ∉ [first] := by
      intro group hgroup heq
      exact hfirst (List.mem_singleton.mp heq ▸ hgroup)
    have hstart' : MergeStart held rest (mergeGroup ctx link tasks held row acc first) :=
      ⟨hone.frame, fun group hgroup =>
        (hone.others group (hnot group hgroup)).2.trans
          (hstart.content group (List.mem_cons_of_mem _ hgroup))⟩
    have hall := ih hrest hstart'
    rw [List.foldl_cons]
    refine ⟨hall.frame, ?_, ?_, ?_, ?_, ?_⟩
    · intro group hgroup
      rcases List.mem_cons.mp hgroup with rfl | hgroup
      · obtain ⟨hs, hdigest⟩ := hall.others group hfirst
        rw [hs, hdigest]
        exact hone.merged group List.mem_cons_self
      · exact hall.merged group hgroup
    · intro group hgroup
      have hrest' : group ∉ rest := fun h => hgroup (List.mem_cons_of_mem _ h)
      have hfirst' : group ∉ [first] := fun h =>
        hgroup (List.mem_singleton.mp h ▸ List.mem_cons_self)
      obtain ⟨hs, hdigest⟩ := hall.others group hrest'
      obtain ⟨hs', hdigest'⟩ := hone.others group hfirst'
      exact ⟨hs.trans hs', hdigest.trans hdigest'⟩
    · rw [hall.won, hone.won]
      simp [or_assoc]
    · intro hrefuses
      rw [hall.idle (fun group hgroup => hrefuses group (List.mem_cons_of_mem _ hgroup))]
      exact hone.idle (fun group hgroup =>
        hrefuses group (List.mem_singleton.mp hgroup ▸ List.mem_cons_self))
    · intro hno
      rw [hall.preserved (fun group hgroup => hno group (List.mem_cons_of_mem _ hgroup))]
      exact hone.preserved (fun group hgroup =>
        hno group (List.mem_singleton.mp hgroup ▸ List.mem_cons_self))

/-! ### The merged copy -/

theorem mergeGroups_spec (ctx : WriteContext ρ) (link : ApplyLink) (tasks : List (BoardTask ρ))
    (held : BoardTask ρ) (row : WireTask) :
    MergeDone ctx link tasks held row TASK_SYNC_GROUPS
      ⟨boardFilled ctx.self link held row, fun _ => none, false, []⟩
      (mergeGroups ctx link tasks held row) :=
  mergeFold_spec nodup_TASK_SYNC_GROUPS
    ⟨framed_boardFilled ctx.self link held row,
      fun group _ => groupDigest_boardFilled ctx.self link held row group⟩

/-- `merged` is what the row makes of the copy `held`. -/
structure CopyMerge (ctx : WriteContext ρ) (link : ApplyLink) (tasks : List (BoardTask ρ))
    (held : BoardTask ρ) (row : WireTask) (merged : BoardTask ρ) : Prop where
  id : merged.id = held.id
  project : merged.project = held.project
  ownReview : merged.ownReview = held.ownReview
  findingKey : merged.findingKey = held.findingKey
  groups : ∀ group, GroupMerge ctx link tasks held row group
    (some (effectiveStamp merged group ctx.self.pfx)) (groupDigest merged group)
  /-- Either nothing was written that the stamps depend on, or every group is stamped. -/
  stored : (merged.sync = held.sync ∧ merged.updatedAt = held.updatedAt) ∨
    ∀ group, storedStamp merged group = some (effectiveStamp merged group ctx.self.pfx)

theorem effectiveStamp_congr {a b : BoardTask ρ} (hsync : a.sync = b.sync)
    (htime : a.updatedAt = b.updatedAt) (group : TaskSyncGroup) (pfx : String) :
    effectiveStamp a group pfx = effectiveStamp b group pfx := by
  unfold effectiveStamp
  rw [hsync, htime]

theorem effectiveStamp_of_stored {task : BoardTask ρ} {group : TaskSyncGroup} {stamp : Stamp}
    (h : storedStamp task group = some stamp) (pfx : String) :
    effectiveStamp task group pfx = stamp := by
  unfold storedStamp at h
  unfold effectiveStamp
  rw [h]

/-- A copy that keeps every group. -/
theorem copyMerge_kept {merged : BoardTask ρ} (hframe : Framed held merged)
    (hcontent : ∀ group, groupDigest merged group = groupDigest held group)
    (hrefuses : ∀ group, Refuses ctx link held row group) :
    CopyMerge ctx link tasks held row merged := by
  refine ⟨hframe.id, hframe.project, hframe.ownReview, hframe.findingKey, ?_,
    Or.inl ⟨hframe.sync, hframe.updatedAt⟩⟩
  intro group
  rw [effectiveStamp_congr hframe.sync hframe.updatedAt, hcontent]
  exact .kept (hrefuses group)

theorem refuses_of_not_won (h : (mergeGroups ctx link tasks held row).won = false)
    (group : TaskSyncGroup) : Refuses ctx link held row group := by
  by_contra hwins
  have hwon := (mergeGroups_spec ctx link tasks held row).won.mpr
    (Or.inr ⟨group, mem_TASK_SYNC_GROUPS group, hwins⟩)
  rw [h] at hwon
  exact absurd hwon (by simp)

theorem copyMerge_stampMerged (checks : WireChecks) :
    CopyMerge ctx link tasks held row
      (stampMerged checks ctx.self link (mergeGroups ctx link tasks held row) row) := by
  have hdone := mergeGroups_spec ctx link tasks held row
  have hstamped : ∀ group, ∃ stamp, (mergeGroups ctx link tasks held row).s group = some stamp :=
    fun group => (hdone.merged group (mem_TASK_SYNC_GROUPS group)).exists_stamp
  have hstored : ∀ group, storedStamp
      (stampMerged checks ctx.self link (mergeGroups ctx link tasks held row) row) group =
        (mergeGroups ctx link tasks held row).s group := fun _ => rfl
  have hdigest : ∀ group, groupDigest
      (stampMerged checks ctx.self link (mergeGroups ctx link tasks held row) row) group =
        groupDigest (mergeGroups ctx link tasks held row).merged group := by
    intro group
    cases group <;> rfl
  have heffective : ∀ group, some (effectiveStamp
      (stampMerged checks ctx.self link (mergeGroups ctx link tasks held row) row) group
        ctx.self.pfx) = (mergeGroups ctx link tasks held row).s group := by
    intro group
    obtain ⟨stamp, hstamp⟩ := hstamped group
    rw [effectiveStamp_of_stored ((hstored group).trans hstamp), hstamp]
  refine ⟨hdone.frame.id, hdone.frame.project, hdone.frame.ownReview, hdone.frame.findingKey, ?_,
    Or.inr fun group => (hstored group).trans (heffective group).symm⟩
  intro group
  rw [heffective, hdigest]
  exact hdone.merged group (mem_TASK_SYNC_GROUPS group)

/-- **What `mergeHeld` returns.** -/
theorem mergeHeld_spec {checks : WireChecks} {merged : BoardTask ρ}
    {preserved : List (String × TaskSyncGroup)}
    (h : mergeHeld checks ctx link tasks held row = some (merged, preserved)) :
    CopyMerge ctx link tasks held row merged ∧
      ((∀ group, ¬ Restores ctx held row group) → preserved = []) := by
  have hdone := mergeGroups_spec ctx link tasks held row
  have hpreserved : (∀ group, ¬ Restores ctx held row group) →
      (mergeGroups ctx link tasks held row).preserved = [] :=
    fun hno => hdone.preserved (fun group _ => hno group)
  unfold mergeHeld at h
  dsimp only at h
  split at h
  · simp only [Option.some.injEq, Prod.mk.injEq] at h
    obtain ⟨rfl, rfl⟩ := h
    exact ⟨copyMerge_stampMerged checks, hpreserved⟩
  · rename_i hwon
    split at h
    · simp only [Option.some.injEq, Prod.mk.injEq] at h
      obtain ⟨rfl, rfl⟩ := h
      have hrefuses := refuses_of_not_won (Bool.not_eq_true _ ▸ hwon)
      refine ⟨copyMerge_kept hdone.frame ?_ hrefuses, hpreserved⟩
      intro group
      rw [hdone.idle (fun group _ => hrefuses group), groupDigest_boardFilled]
    · simp at h

variable (tasks) in
/-- Nothing is merged exactly when every group is refused and no preference is filled. -/
theorem mergeHeld_eq_none (checks : WireChecks) :
    mergeHeld checks ctx link tasks held row = none ↔
      (∀ group, Refuses ctx link held row group) ∧ fillsBoard ctx.self link held row = false := by
  have hdone := mergeGroups_spec ctx link tasks held row
  unfold mergeHeld
  dsimp only
  constructor
  · intro h
    split at h
    · simp at h
    · rename_i hwon
      split at h
      · simp at h
      · rename_i hboard
        exact ⟨refuses_of_not_won (Bool.not_eq_true _ ▸ hwon), Bool.not_eq_true _ ▸ hboard⟩
  · rintro ⟨hrefuses, hboard⟩
    have hwon : ¬ (mergeGroups ctx link tasks held row).won = true := by
      rw [hdone.won]
      simp [hrefuses]
    rw [if_neg hwon, if_neg (by simp [hboard])]

end Groups

/-! ### The board preference, and arrivals -/

theorem groupDigest_admitToBoard (ctx : WriteContext ρ) (tasks : List (BoardTask ρ))
    (held : Option (BoardTask ρ)) (merged : BoardTask ρ) (group : TaskSyncGroup) :
    groupDigest (admitToBoard ctx tasks held merged) group = groupDigest merged group := by
  unfold admitToBoard
  split
  · cases group <;> rfl
  · rfl

theorem framed_admitToBoard (ctx : WriteContext ρ) (tasks : List (BoardTask ρ))
    (held : Option (BoardTask ρ)) (merged : BoardTask ρ) :
    Framed merged (admitToBoard ctx tasks held merged) := by
  unfold admitToBoard
  split
  · exact ⟨rfl, rfl, rfl, rfl, rfl, rfl, rfl, rfl⟩
  · exact framed_refl merged

/-- The board preference is outside of everything a merge is judged by. -/
theorem CopyMerge.admitToBoard {ctx : WriteContext ρ} {link : ApplyLink}
    {tasks : List (BoardTask ρ)} {held merged : BoardTask ρ} {row : WireTask}
    (h : CopyMerge ctx link tasks held row merged) (before : List (BoardTask ρ))
    (prior : Option (BoardTask ρ)) :
    CopyMerge ctx link tasks held row (admitToBoard ctx before prior merged) := by
  have hframe := framed_admitToBoard ctx before prior merged
  have heffective : ∀ group, effectiveStamp (LinkedBoards.admitToBoard ctx before prior merged)
      group ctx.self.pfx = effectiveStamp merged group ctx.self.pfx :=
    fun group => effectiveStamp_congr hframe.sync hframe.updatedAt group _
  refine ⟨hframe.id.trans h.id, hframe.project.trans h.project, hframe.ownReview.trans h.ownReview,
    hframe.findingKey.trans h.findingKey, ?_, ?_⟩
  · intro group
    rw [heffective, groupDigest_admitToBoard]
    exact h.groups group
  · rcases h.stored with ⟨hsync, htime⟩ | hall
    · exact Or.inl ⟨hframe.sync.trans hsync, hframe.updatedAt.trans htime⟩
    · right
      intro group
      rw [heffective, ← hall group]
      unfold storedStamp
      rw [hframe.sync]

/-- The copy of a task that arrived with `row`. -/
structure Arrived (row : WireTask) (task : BoardTask ρ) : Prop where
  id : task.id = row.id
  project : task.project = row.project
  ownReview : task.ownReview = none
  findingKey : task.findingKey = none
  stored : ∀ group, storedStamp task group = some (row.s group)
  content : ∀ group, group ≠ .handover → groupDigest task group = wireGroup row group

theorem arrived_arrivedTask [Inhabited ρ] (checks : WireChecks) (self : Self) (link : ApplyLink)
    (row : WireTask) : Arrived row (arrivedTask checks self link row : BoardTask ρ) := by
  refine ⟨rfl, rfl, rfl, rfl, fun _ => rfl, ?_⟩
  intro group hgroup
  cases group with
  | text =>
    show GroupContent.text row.text row.details true _ = _
    simp only [wireGroup, GroupContent.text.injEq, true_and]
    unfold arrivedTask prototypeReviewReplica
    cases hreplica : row.prototypeReviewReplica with
    | none => simp [TASK_SYNC_GROUPS, assignGroup, hreplica]
    | some replica => simp [TASK_SYNC_GROUPS, assignGroup, hreplica]
  | status => rfl
  | look => rfl
  | place => rfl
  | links => rfl
  | machine => rfl
  | handover => exact absurd rfl hgroup

theorem Arrived.of_framed {row : WireTask} {task other : BoardTask ρ} (h : Arrived row task)
    (hframe : Framed task other)
    (hcontent : ∀ group, groupDigest other group = groupDigest task group) : Arrived row other := by
  refine ⟨hframe.id.trans h.id, hframe.project.trans h.project, hframe.ownReview.trans h.ownReview,
    hframe.findingKey.trans h.findingKey, ?_, fun group hgroup =>
      (hcontent group).trans (h.content group hgroup)⟩
  intro group
  rw [← h.stored group]
  unfold storedStamp
  rw [hframe.sync]

theorem arrived_arrivalBoard {row : WireTask} {task : BoardTask ρ} (h : Arrived row task) :
    Arrived row (arrivalBoard row task) :=
  h.of_framed ⟨rfl, rfl, rfl, rfl, rfl, rfl, rfl, rfl⟩ (fun group => by cases group <;> rfl)

/-! ### One live row of a page -/

variable [DecidableEq ρ] [Inhabited ρ]

theorem applyLive_companion (checks : WireChecks) (ctx : WriteContext ρ) (link : ApplyLink)
    (page : PageState ρ) (row : WireTask) :
    (applyLive checks ctx link page row).companion =
      { page.companion with stubs := page.companion.stubs.delete row.id } := by
  unfold applyLive
  dsimp only
  split
  · rfl
  · split
    · rfl
    · split
      · rfl
      · rfl

/-- A row that counts nothing changes no task. -/
theorem applyLive_idle {checks : WireChecks} {ctx : WriteContext ρ} {link : ApplyLink}
    {page : PageState ρ} {row : WireTask} (h : (applyLive checks ctx link page row).count = 0) :
    page.count = 0 ∧ (applyLive checks ctx link page row).tasks = page.tasks := by
  unfold applyLive at h ⊢
  dsimp only at h ⊢
  split at h
  · exact absurd h (Nat.succ_ne_zero _)
  · rename_i held hheld
    split at h
    · exact ⟨h, rfl⟩
    · split at h
      · rename_i hsame
        rw [if_pos hsame]
        exact ⟨h, rfl⟩
      · exact absurd h (Nat.succ_ne_zero _)

/-- A live row of a task that is not held: the task arrives. -/
theorem applyLive_absent (checks : WireChecks) (ctx : WriteContext ρ) (link : ApplyLink)
    {page : PageState ρ} {row : WireTask} (h : page.tasks.get? row.id = none) :
    let next := applyLive checks ctx link page row
    (∃ task, Arrived row task ∧ next.tasks.get? row.id = some task) ∧
      (∀ id, id ≠ row.id → next.tasks.get? id = page.tasks.get? id) ∧
      next.preserved = page.preserved ∧ next.count = page.count + 1 := by
  intro next
  let arrived : BoardTask ρ := arrivalBoard row (arrivedTask checks ctx.self link row)
  let admitted : BoardTask ρ := admitToBoard ctx page.tasks.rows none arrived
  have hadmitted : Arrived row admitted :=
    (arrived_arrivalBoard (arrived_arrivedTask checks ctx.self link row)).of_framed
      (framed_admitToBoard ctx _ _ _) (groupDigest_admitToBoard ctx _ _ _)
  have hnext : next.tasks = page.tasks.set admitted ∧ next.preserved = page.preserved ∧
      next.count = page.count + 1 := by
    unfold next applyLive
    dsimp only
    rw [h]
    exact ⟨rfl, rfl, rfl⟩
  refine ⟨⟨admitted, hadmitted, ?_⟩, ?_, hnext.2⟩
  · rw [hnext.1, Table.get?_set, if_pos hadmitted.id.symm]
  · intro id hid
    rw [hnext.1, Table.get?_set, if_neg (hadmitted.id ▸ hid)]

/-- A live row of a task that is held: the copy merges it. -/
theorem applyLive_present (checks : WireChecks) (ctx : WriteContext ρ) (link : ApplyLink)
    {page : PageState ρ} {row : WireTask} {held : BoardTask ρ}
    (h : page.tasks.get? row.id = some held) :
    let next := applyLive checks ctx link page row
    (∃ task, CopyMerge ctx link page.tasks.rows held row task ∧
        next.tasks.get? row.id = some task) ∧
      (∀ id, id ≠ row.id → next.tasks.get? id = page.tasks.get? id) ∧
      ((∀ group, ¬ Restores ctx held row group) → next.preserved = page.preserved) := by
  intro next
  have hid : held.id = row.id := (Table.get?_eq_some.mp h).2
  cases hmerge : mergeHeld checks ctx link page.tasks.rows held row with
  | none =>
    have hnext : next.tasks = page.tasks ∧ next.preserved = page.preserved := by
      unfold next applyLive
      dsimp only
      rw [h]
      dsimp only
      rw [hmerge]
      exact ⟨rfl, rfl⟩
    refine ⟨⟨held, ?_, by rw [hnext.1, h]⟩, fun _ _ => by rw [hnext.1], fun _ => hnext.2⟩
    exact copyMerge_kept (framed_refl held) (fun _ => rfl)
      ((mergeHeld_eq_none page.tasks.rows checks).mp hmerge).1
  | some merging =>
    obtain ⟨merged, preserved⟩ := merging
    obtain ⟨hcopy, hpreserved⟩ := mergeHeld_spec hmerge
    let admitted := admitToBoard ctx page.tasks.rows (some held) merged
    have hadmitted : CopyMerge ctx link page.tasks.rows held row admitted :=
      hcopy.admitToBoard _ _
    have hpres : next.preserved = preserved ++ page.preserved := by
      simp only [next, applyLive, h, hmerge]
      split <;> rfl
    have hpres' : (∀ group, ¬ Restores ctx held row group) → next.preserved = page.preserved := by
      intro hno
      rw [hpres, hpreserved hno, List.nil_append]
    by_cases hsame : admitted = held
    · have hnext : next.tasks = page.tasks := by
        simp only [next, applyLive, h, hmerge]
        rw [if_pos hsame]
      exact ⟨⟨held, hsame ▸ hadmitted, by rw [hnext, h]⟩, fun _ _ => by rw [hnext], hpres'⟩
    · have hnext : next.tasks = page.tasks.set admitted := by
        simp only [next, applyLive, h, hmerge]
        rw [if_neg hsame]
      refine ⟨⟨admitted, hadmitted, ?_⟩, ?_, hpres'⟩
      · rw [hnext, Table.get?_set, if_pos (hadmitted.id.trans hid).symm]
      · intro id hne
        rw [hnext, Table.get?_set, if_neg ((hadmitted.id.trans hid).symm ▸ hne)]

end Merge

end Delegatus.LinkedBoards
