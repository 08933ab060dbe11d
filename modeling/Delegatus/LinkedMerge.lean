import Delegatus.LastWriter
import Delegatus.LinkedDeletion

/-!
# Live rows merge as a last-writer-wins join

Each of the groups text, status, look, place and links of a task is a register: its
content under its effective stamp.  A live row joins its own registers into those of the
copy (`register_of_merge`), the commit of the page leaves the registers as the rows left
them (`register_of_commit`), and so a run of pages absorbs the rows of the pages in their
order (`view_after_pages`).  What `absorb` yields does not depend on order or repetition.

The review replica inside the text group is the exception: a row without one, as an older
peer sends it, wins the group and leaves the replica of the copy, and a copy with review
rounds of its own shows those.  The registers are therefore read with the replica
(`keep = true`) only for a task whose rows all carry one and whose copy has no rounds.
-/

namespace Delegatus.LinkedBoards

open LinkStamps LastWriter

/-! ### Registers -/

/-- A group's content, with the review replica or without it. -/
def contentOf (keep : Bool) : GroupContent → GroupContent
  | .text text details chosen replica =>
    .text text details chosen (if keep then replica else none)
  | content => content

section Registers

variable {ρ : Type}

/-- A group of a copy as a register. -/
def copyRegister (keep : Bool) (pfx : String) (task : BoardTask ρ) (group : TaskSyncGroup) :
    Register Stamp GroupContent :=
  ⟨effectiveStamp task group pfx, contentOf keep (groupDigest task group)⟩

/-- A group of a row as a register. -/
def rowRegister (keep : Bool) (row : WireTask) (group : TaskSyncGroup) :
    Register Stamp GroupContent :=
  ⟨row.s group, contentOf keep (wireGroup row group)⟩

/-- A group of the task `id`, where the task is held. -/
def viewOf (keep : Bool) (pfx : String) (tasks : Tasks ρ) (id : String) (group : TaskSyncGroup) :
    Option (Register Stamp GroupContent) :=
  (tasks.get? id).map (fun task => copyRegister keep pfx task group)

/-- The registers that the rows carry for a group of the task `id`, in their order. -/
def registersOf (keep : Bool) (id : String) (group : TaskSyncGroup) (rows : List WireTask) :
    List (Register Stamp GroupContent) :=
  (rows.filter (fun row => row.id = id)).map (fun row => rowRegister keep row group)

/-- The row meets neither of the two special cases of a merge. -/
def QuietRow (ctx : WriteContext ρ) (tasks : Tasks ρ) (row : WireTask) : Prop :=
  ∀ held, tasks.get? row.id = some held →
    (∀ group, ¬ Restores ctx held row group) ∧
      ¬ (heldStamp ctx held .status < row.s .status ∧ Reopens tasks.rows held row .status)

/-- The register can be read with the replica: the row carries one, the copy has no
rounds of its own. -/
def CarriesReplica (keep : Bool) (held : BoardTask ρ) (row : WireTask) : Prop :=
  keep = true → held.ownReview = none ∧ row.prototypeReviewReplica.isSome = true

/-- The content of a group that a row won. -/
theorem content_assignGroup {keep : Bool} {held : BoardTask ρ} {row : WireTask}
    {group : TaskSyncGroup} (hgroup : group ∈ sharedGroups) (hcarries : CarriesReplica keep held row) :
    contentOf keep (groupDigest (assignGroup held row group) group) =
      contentOf keep (wireGroup row group) := by
  cases group with
  | text =>
    cases keep with
    | false => rfl
    | true =>
      obtain ⟨hown, hreplica⟩ := hcarries rfl
      obtain ⟨replica, hreplica⟩ := Option.isSome_iff_exists.mp hreplica
      simp only [groupDigest, assignGroup, prototypeReviewReplica, hown, hreplica, wireGroup]
  | status => rfl
  | look => rfl
  | place => rfl
  | links => rfl
  | machine => exact absurd rfl (ne_of_mem_sharedGroups hgroup).1
  | handover => exact absurd rfl (ne_of_mem_sharedGroups hgroup).2

/-- A shared group of a quiet merge is kept or taken. -/
theorem GroupMerge.quiet {ctx : WriteContext ρ} {link : ApplyLink} {tasks : List (BoardTask ρ)}
    {held : BoardTask ρ} {row : WireTask} {group : TaskSyncGroup} {s : Option Stamp}
    {content : GroupContent} (h : GroupMerge ctx link tasks held row group s content)
    (hgroup : group ∈ sharedGroups) (hrestore : ¬ Restores ctx held row group)
    (hreopen : ¬ (heldStamp ctx held group < row.s group ∧ Reopens tasks held row group)) :
    (row.s group ≤ heldStamp ctx held group ∧ s = some (heldStamp ctx held group) ∧
        content = groupDigest held group) ∨
      (heldStamp ctx held group < row.s group ∧ s = some (row.s group) ∧
        content = groupDigest (assignGroup held row group) group) := by
  cases h with
  | kept hrefuses =>
    rcases hrefuses with ⟨hle, -⟩ | ⟨hmachine, -⟩ | ⟨hhandover, -⟩
    · exact Or.inl ⟨hle, rfl, rfl⟩
    · exact absurd hmachine (ne_of_mem_sharedGroups hgroup).1
    · exact absurd hhandover (ne_of_mem_sharedGroups hgroup).2
  | taken hlt _ => exact Or.inr ⟨hlt, rfl, rfl⟩
  | reopened hreopens hlt => exact absurd ⟨hlt, hreopens⟩ hreopen
  | restored hrestores _ => exact absurd hrestores hrestore

/-- **A quiet row joins its registers** into those of the copy. -/
theorem register_of_merge {keep : Bool} {ctx : WriteContext ρ} {link : ApplyLink} {tasks : Tasks ρ}
    {held task : BoardTask ρ} {row : WireTask} (hheld : tasks.get? row.id = some held)
    (hquiet : QuietRow ctx tasks row) (hcarries : CarriesReplica keep held row)
    (h : CopyMerge ctx link tasks.rows held row task) {group : TaskSyncGroup}
    (hgroup : group ∈ sharedGroups) :
    copyRegister keep ctx.self.pfx task group =
      join (copyRegister keep ctx.self.pfx held group) (rowRegister keep row group) := by
  obtain ⟨hrestore, hreopen⟩ := hquiet held hheld
  have hreopen' : ¬ (heldStamp ctx held group < row.s group ∧ Reopens tasks.rows held row group) := by
    rintro ⟨hlt, hreopens⟩
    obtain rfl := hreopens.1
    exact hreopen ⟨hlt, hreopens⟩
  rcases (h.groups group).quiet hgroup (hrestore group) hreopen' with
    ⟨hle, hstamp, hcontent⟩ | ⟨hlt, hstamp, hcontent⟩
  · have hkept : (rowRegister keep row group).stamp ≤
        (copyRegister keep ctx.self.pfx held group).stamp := hle
    rw [join_of_le hkept]
    unfold copyRegister
    rw [Option.some.inj hstamp, hcontent]
    rfl
  · have htaken : (copyRegister keep ctx.self.pfx held group).stamp <
        (rowRegister keep row group).stamp := hlt
    rw [join_of_lt htaken]
    unfold copyRegister rowRegister
    rw [Option.some.inj hstamp, hcontent, content_assignGroup hgroup hcarries]

/-- A task that arrives holds the registers of its row. -/
theorem register_of_arrival {keep : Bool} {pfx : String} {row : WireTask} {task : BoardTask ρ}
    (h : Arrived row task) {group : TaskSyncGroup} (hgroup : group ∈ sharedGroups) :
    copyRegister keep pfx task group = rowRegister keep row group := by
  unfold copyRegister rowRegister
  rw [effectiveStamp_of_stored (h.stored group), h.content group (ne_of_mem_sharedGroups hgroup).2]

end Registers

/-! ### The commit of a page -/

section Commit

variable {ρ : Type}

/-- A group of a row of the page, beside the row `before` the page: it took a larger stamp,
or it reads what it read. -/
def Tracks (pfx : String) (before : Tasks ρ) (task : BoardTask ρ) (group : TaskSyncGroup) : Prop :=
  (∃ stamp, storedStamp task group = some stamp ∧
      ∀ prior, before.get? task.id = some prior → effectiveStamp prior group pfx < stamp) ∨
    ∃ prior, before.get? task.id = some prior ∧ prior.project = task.project ∧
      groupDigest task group = groupDigest prior group ∧
      effectiveStamp task group pfx = effectiveStamp prior group pfx ∧
      (storedStamp task group = storedStamp prior group ∨
        storedStamp task group = some (effectiveStamp prior group pfx))

theorem tracks_self {pfx : String} {before : Tasks ρ} {task : BoardTask ρ}
    (h : before.get? task.id = some task) (group : TaskSyncGroup) : Tracks pfx before task group :=
  Or.inr ⟨task, h, rfl, rfl, rfl, Or.inl rfl⟩

/-- A stamp of the copy is at least what the copy read before the page. -/
theorem Tracks.le {pfx : String} {before : Tasks ρ} {task prior : BoardTask ρ}
    {group : TaskSyncGroup} (h : Tracks pfx before task group)
    (hprior : before.get? task.id = some prior) :
    effectiveStamp prior group pfx ≤ effectiveStamp task group pfx := by
  rcases h with ⟨stamp, hstored, hlt⟩ | ⟨other, hother, -, -, heq, -⟩
  · rw [effectiveStamp_of_stored hstored]
    exact (hlt prior hprior).le
  · rw [hprior] at hother
    rw [heq, Option.some.inj hother]

/-- A row keeps track of the row before the page. -/
theorem tracks_of_merge {ctx : WriteContext ρ} {link : ApplyLink} {tasks : List (BoardTask ρ)}
    {before : Tasks ρ} {held task : BoardTask ρ} {row : WireTask}
    (h : CopyMerge ctx link tasks held row task) {group : TaskSyncGroup}
    (hrestore : ¬ Restores ctx held row group)
    (htracks : Tracks ctx.self.pfx before held group) : Tracks ctx.self.pfx before task group := by
  -- a stamp above the copy's is stored, and above the row before the page
  have hraised : heldStamp ctx held group < effectiveStamp task group ctx.self.pfx →
      Tracks ctx.self.pfx before task group := by
    intro hlt
    rcases h.stored with ⟨hsync, htime⟩ | hstored
    · rw [effectiveStamp_congr hsync htime] at hlt
      exact absurd hlt (lt_irrefl _)
    · refine Or.inl ⟨_, hstored group, fun prior hprior => ?_⟩
      exact (htracks.le (h.id ▸ hprior)).trans_lt hlt
  have hmerge := h.groups group
  generalize hstamp : some (effectiveStamp task group ctx.self.pfx) = stamp,
    hcontent : groupDigest task group = content at hmerge
  cases hmerge with
  | kept _ =>
    have heq : effectiveStamp task group ctx.self.pfx = effectiveStamp held group ctx.self.pfx :=
      Option.some.inj hstamp
    have hstored : storedStamp task group = storedStamp held group ∨
        storedStamp task group = some (effectiveStamp held group ctx.self.pfx) := by
      rcases h.stored with ⟨hsync, -⟩ | hall
      · left
        unfold storedStamp
        rw [hsync]
      · right
        rw [hall, heq]
    rcases htracks with ⟨old, hold, hlt⟩ | ⟨prior, hprior, hproject, hdigest, hread, hkept⟩
    · refine Or.inl ⟨old, ?_, h.id ▸ hlt⟩
      rcases hstored with hsame | hsame
      · rw [hsame, hold]
      · rw [hsame, effectiveStamp_of_stored hold]
    · refine Or.inr ⟨prior, h.id ▸ hprior, hproject.trans h.project.symm,
        hcontent.trans hdigest, heq.trans hread, ?_⟩
      rcases hstored with hsame | hsame
      · rw [hsame]
        exact hkept
      · exact Or.inr (hsame.trans (congrArg some hread))
  | taken hlt _ =>
    apply hraised
    rw [Option.some.inj hstamp]
    exact hlt
  | reopened hreopens hlt =>
    apply hraised
    rw [Option.some.inj hstamp]
    obtain rfl := hreopens.1
    exact hlt.trans (lt_nextStamp _ _ _)
  | restored hrestores _ => exact absurd hrestores hrestore

theorem tracks_of_arrival {pfx : String} {before : Tasks ρ} {row : WireTask} {task : BoardTask ρ}
    (h : Arrived row task) (habsent : before.get? row.id = none) (group : TaskSyncGroup) :
    Tracks pfx before task group := by
  refine Or.inl ⟨_, h.stored group, fun prior hprior => ?_⟩
  rw [h.id, habsent] at hprior
  cases hprior

theorem groupDigest_ownedHere (self : Self) (task : BoardTask ρ) {group : TaskSyncGroup}
    (h : group ≠ .machine) : groupDigest (ownedHere self task) group = groupDigest task group := by
  cases group <;> first | rfl | exact absurd rfl h

/-- The pass leaves a group that tracks the row before the page the stamp it reads; the
machine group, which the pass itself may write, can get a larger one. -/
theorem stamp_of_tracks {ctx : WriteContext ρ} {before : Tasks ρ} {companion : Companion}
    {task settled : BoardTask ρ} {group : TaskSyncGroup} {left : Option Stamp}
    (hsettled : Settled task settled) (hlinked : task.project ∈ ctx.linked)
    (htracks : Tracks ctx.self.pfx before task group)
    (h : GroupStamp ctx [] before.rows companion (snapshotOf ctx before task.id)
      (ownedHere ctx.self settled) group left) :
    ∃ stamp, left = some stamp ∧ effectiveStamp task group ctx.self.pfx ≤ stamp ∧
      (group ≠ .machine → stamp = effectiveStamp task group ctx.self.pfx) := by
  obtain ⟨rest, proactive, rfl⟩ := hsettled
  -- a stamp that the page stored is what the row reads
  have hread : ∀ stamp, storedStamp task group = some stamp →
      effectiveStamp task group ctx.self.pfx = stamp :=
    fun stamp hstored => effectiveStamp_of_stored hstored _
  cases h with
  | kept stamp hset _ =>
    have heq := hread stamp hset
    exact ⟨stamp, rfl, heq.le, fun _ => heq.symm⟩
  | preserved _ _ _ hasked => simp at hasked
  | minted stamp _ habove hchanged hunset =>
    rcases htracks with ⟨old, hstored, hlt⟩ | ⟨prior, hprior, hproject, hdigest, heq, -⟩
    · -- the writer set a stamp that the row did not have
      have hstored' : storedStamp (ownedHere ctx.self
          { task with rest := rest, proactive := proactive }) group = some old := hstored
      rcases hunset with hnone | hsnapshot
      · rw [hstored'] at hnone
        cases hnone
      · rw [hstored'] at hsnapshot
        obtain ⟨prior, hprior, hread'⟩ := Option.bind_eq_some_iff.mp hsnapshot.symm
        have hbelow := hlt prior (Option.filter_eq_some_iff.mp hprior).1
        rw [effectiveStamp_of_stored hread'] at hbelow
        exact absurd hbelow (lt_irrefl _)
    · have hsnapshot : snapshotOf ctx before task.id = some prior :=
        Option.filter_eq_some_iff.mpr ⟨hprior, by simpa [hproject] using hlinked⟩
      refine ⟨stamp, rfl, ?_, ?_⟩
      · have hcovered : Covered ctx.self before.rows companion task.project
            (effectiveStamp prior group ctx.self.pfx) :=
          Or.inl ⟨prior, (Table.get?_eq_some.mp hprior).1, hproject, group, le_refl _⟩
        rw [heq]
        exact (habove _ hcovered).le
      · intro hmachine
        refine absurd ?_ (hchanged prior hsnapshot)
        rw [groupDigest_ownedHere ctx.self _ hmachine, ← hdigest]
        cases group <;> rfl
  | pinned held hheld _ hunset =>
    have hget := (Option.filter_eq_some_iff.mp hheld).1
    rcases htracks with ⟨old, hstored, hlt⟩ | ⟨prior, hprior, -, -, heq, -⟩
    · have hstored' : storedStamp (ownedHere ctx.self
          { task with rest := rest, proactive := proactive }) group = some old := hstored
      rcases hunset with hnone | hsame
      · rw [hstored'] at hnone
        cases hnone
      · have hbelow := hlt held hget
        rw [effectiveStamp_of_stored (hsame.symm.trans hstored')] at hbelow
        exact absurd hbelow (lt_irrefl _)
    · have hsame : held = prior := Option.some.inj (hget.symm.trans hprior)
      rw [hsame]
      exact ⟨_, rfl, heq.le, fun _ => heq.symm⟩

/-- What the commit of a quiet page leaves of a row of the page. -/
structure Kept (own : Self) (task row : BoardTask ρ) : Prop where
  id : row.id = task.id
  ownReview : row.ownReview = task.ownReview
  content : ∀ group, group ≠ .machine → groupDigest row group = groupDigest task group
  stamp : ∀ group, group ≠ .machine →
    effectiveStamp row group own.pfx = effectiveStamp task group own.pfx
  raised : ∀ group, effectiveStamp task group own.pfx ≤ effectiveStamp row group own.pfx
  machine : row.machine = task.machine ∨
    row.machine = some ((nonEmpty task.machine).getD own.id)

/-- **The commit of a page** leaves a row that tracks the row before as the page left it. -/
theorem kept_of_commit {ctx : WriteContext ρ} {before : Tasks ρ} {companion : Companion}
    {task row : BoardTask ρ} (h : Committed ctx [] before companion task row)
    (htracks : ∀ group, Tracks ctx.self.pfx before task group) : Kept ctx.self task row := by
  obtain ⟨settled, ⟨rest, proactive, rfl⟩, hrow⟩ := h
  cases hrow with
  | untouched _ =>
    exact ⟨rfl, rfl, fun group _ => by cases group <;> rfl, fun _ _ => rfl, fun _ => le_refl _,
      Or.inl rfl⟩
  | stamped s o hlinked hs =>
    have hgroup : ∀ group, ∃ stamp, s group = some stamp ∧
        effectiveStamp task group ctx.self.pfx ≤ stamp ∧
        (group ≠ .machine → stamp = effectiveStamp task group ctx.self.pfx) :=
      fun group => stamp_of_tracks ⟨rest, proactive, rfl⟩ hlinked (htracks group) (hs group)
    have hread : ∀ group stamp, s group = some stamp → effectiveStamp
        { ownedHere ctx.self { task with rest := rest, proactive := proactive } with
          sync := some ⟨s, o⟩ } group ctx.self.pfx = stamp := by
      intro group stamp hstamp
      apply effectiveStamp_of_stored
      exact hstamp
    refine ⟨rfl, rfl, ?_, ?_, ?_, Or.inr rfl⟩
    · intro group hmachine
      cases group <;> first | rfl | exact absurd rfl hmachine
    · intro group hmachine
      obtain ⟨stamp, hstamp, -, heq⟩ := hgroup group
      rw [hread group stamp hstamp, heq hmachine]
    · intro group
      obtain ⟨stamp, hstamp, hle, -⟩ := hgroup group
      rw [hread group stamp hstamp]
      exact hle

end Commit

/-! ### The rows of a page -/

section Pages

variable {ρ : Type} [DecidableEq ρ] [Inhabited ρ]

/-- The rows of a page, applied in order. -/
def foldLive (checks : WireChecks) (ctx : WriteContext ρ) (link : ApplyLink) (page : PageState ρ)
    (rows : List WireTask) : PageState ρ :=
  rows.foldl (applyLive checks ctx link) page

/-- Every row is quiet where it is applied. -/
def QuietRows (checks : WireChecks) (ctx : WriteContext ρ) (link : ApplyLink) :
    PageState ρ → List WireTask → Prop
  | _, [] => True
  | page, row :: rest =>
    QuietRow ctx page.tasks row ∧ QuietRows checks ctx link (applyLive checks ctx link page row) rest

omit [DecidableEq ρ] [Inhabited ρ] in
theorem viewOf_congr {keep : Bool} {pfx : String} {a b : Tasks ρ} {id : String}
    (h : a.get? id = b.get? id) (group : TaskSyncGroup) :
    viewOf keep pfx a id group = viewOf keep pfx b id group := by
  unfold viewOf
  rw [h]

/-- The copy of `id`, if there is one, has no review rounds of its own, where that matters. -/
def OwnsNoReview (keep : Bool) (tasks : Tasks ρ) (id : String) : Prop :=
  keep = true → ∀ held, tasks.get? id = some held → held.ownReview = none

/-- One quiet row: its registers are joined into those of its task. -/
theorem view_applyLive {keep : Bool} (checks : WireChecks) {ctx : WriteContext ρ}
    (link : ApplyLink) {page : PageState ρ} {row : WireTask} (hquiet : QuietRow ctx page.tasks row)
    {id : String} (hown : OwnsNoReview keep page.tasks id)
    (hreplica : keep = true → row.id = id → row.prototypeReviewReplica.isSome = true) :
    OwnsNoReview keep (applyLive checks ctx link page row).tasks id ∧
      ∀ group ∈ sharedGroups,
        viewOf keep ctx.self.pfx (applyLive checks ctx link page row).tasks id group =
          absorb (viewOf keep ctx.self.pfx page.tasks id group) (registersOf keep id group [row]) := by
  by_cases hid : row.id = id
  · subst hid
    have hregisters : ∀ group, registersOf keep row.id group [row] = [rowRegister keep row group] := by
      intro group
      simp [registersOf]
    cases hheld : page.tasks.get? row.id with
    | none =>
      obtain ⟨⟨task, harrived, hget⟩, -, -, -⟩ := applyLive_absent checks ctx link hheld
      refine ⟨fun _ held hread => ?_, fun group hgroup => ?_⟩
      · rw [hget] at hread
        exact Option.some.inj hread ▸ harrived.ownReview
      · rw [hregisters]
        unfold viewOf
        rw [hget, hheld]
        exact congrArg some (register_of_arrival harrived hgroup)
    | some held =>
      obtain ⟨⟨task, hmerge, hget⟩, -, -⟩ := applyLive_present checks ctx link hheld
      have hcarries : CarriesReplica keep held row :=
        fun hkeep => ⟨hown hkeep held hheld, hreplica hkeep rfl⟩
      refine ⟨fun hkeep other hread => ?_, fun group hgroup => ?_⟩
      · rw [hget] at hread
        rw [← Option.some.inj hread, hmerge.ownReview]
        exact hown hkeep held hheld
      · rw [hregisters]
        unfold viewOf
        rw [hget, hheld]
        exact congrArg some (register_of_merge hheld hquiet hcarries hmerge hgroup)
  · have hother : (applyLive checks ctx link page row).tasks.get? id = page.tasks.get? id := by
      cases hheld : page.tasks.get? row.id with
      | none => exact (applyLive_absent checks ctx link hheld).2.1 id (fun heq => hid heq.symm)
      | some held => exact (applyLive_present checks ctx link hheld).2.1 id (fun heq => hid heq.symm)
    refine ⟨fun hkeep held hread => hown hkeep held (hother ▸ hread), fun group _ => ?_⟩
    rw [viewOf_congr hother]
    simp [registersOf, hid]

/-- The rows of a page are absorbed in their order. -/
theorem view_foldLive {keep : Bool} {checks : WireChecks} {ctx : WriteContext ρ}
    {link : ApplyLink} {rows : List WireTask} {page : PageState ρ}
    (hquiet : QuietRows checks ctx link page rows) {id : String}
    (hown : OwnsNoReview keep page.tasks id)
    (hreplica : keep = true → ∀ row ∈ rows, row.id = id → row.prototypeReviewReplica.isSome = true) :
    OwnsNoReview keep (foldLive checks ctx link page rows).tasks id ∧
      ∀ group ∈ sharedGroups,
        viewOf keep ctx.self.pfx (foldLive checks ctx link page rows).tasks id group =
          absorb (viewOf keep ctx.self.pfx page.tasks id group) (registersOf keep id group rows) := by
  induction rows generalizing page with
  | nil => exact ⟨hown, fun _ _ => rfl⟩
  | cons row rest ih =>
    obtain ⟨hrow, hrest⟩ := hquiet
    obtain ⟨hown', hview⟩ := view_applyLive checks link hrow hown
      (fun hkeep => hreplica hkeep row List.mem_cons_self)
    obtain ⟨hown'', hviews⟩ := ih hrest hown'
      (fun hkeep other hmem => hreplica hkeep other (List.mem_cons_of_mem _ hmem))
    refine ⟨hown'', fun group hgroup => ?_⟩
    have hsplit : registersOf keep id group (row :: rest) =
        registersOf keep id group [row] ++ registersOf keep id group rest := by
      unfold registersOf
      rw [← List.map_append, ← List.filter_append, List.singleton_append]
    rw [hsplit, absorb_append, ← hview group hgroup]
    exact hviews group hgroup

/-- Everything a later row needs to know of the page so far, against the store before it. -/
structure PageTracks (ctx : WriteContext ρ) (before : TaskStore ρ) (page : PageState ρ) : Prop where
  tracks : ∀ task ∈ page.tasks.rows, ∀ group, Tracks ctx.self.pfx before.tasks task group
  present : ∀ id, page.tasks.get? id = none → before.tasks.get? id = none
  preserved : page.preserved = []
  idle : page.count = 0 → page.tasks = before.tasks

theorem pageTracks_applyLive (checks : WireChecks) {ctx : WriteContext ρ} (link : ApplyLink)
    {before : TaskStore ρ} {page : PageState ρ} {row : WireTask}
    (h : PageTracks ctx before page) (hquiet : QuietRow ctx page.tasks row) :
    PageTracks ctx before (applyLive checks ctx link page row) := by
  have hcases : (∃ task, (applyLive checks ctx link page row).tasks.get? row.id = some task ∧
        ∀ group, Tracks ctx.self.pfx before.tasks task group) ∧
      (∀ id, id ≠ row.id →
        (applyLive checks ctx link page row).tasks.get? id = page.tasks.get? id) ∧
      (applyLive checks ctx link page row).preserved = page.preserved := by
    cases hheld : page.tasks.get? row.id with
    | none =>
      obtain ⟨⟨task, harrived, hget⟩, hothers, hpreserved, -⟩ :=
        applyLive_absent checks ctx link hheld
      exact ⟨⟨task, hget, fun group => tracks_of_arrival harrived (h.present _ hheld) group⟩,
        hothers, hpreserved⟩
    | some held =>
      obtain ⟨⟨task, hmerge, hget⟩, hothers, hpreserved⟩ :=
        applyLive_present checks ctx link hheld
      obtain ⟨hrestore, -⟩ := hquiet held hheld
      have hmem : held ∈ page.tasks.rows := (Table.get?_eq_some.mp hheld).1
      exact ⟨⟨task, hget, fun group =>
        tracks_of_merge hmerge (hrestore group) (h.tracks held hmem group)⟩,
        hothers, hpreserved hrestore⟩
  obtain ⟨⟨task, hget, htracks⟩, hothers, hpreserved⟩ := hcases
  refine ⟨?_, ?_, hpreserved.trans h.preserved, ?_⟩
  · intro other hmem
    have hother : (applyLive checks ctx link page row).tasks.get? other.id = some other :=
      Table.get?_eq_some.mpr ⟨hmem, rfl⟩
    by_cases hid : other.id = row.id
    · rw [hid, hget] at hother
      exact Option.some.inj hother ▸ htracks
    · rw [hothers other.id hid] at hother
      exact h.tracks other (Table.get?_eq_some.mp hother).1
  · intro id hnone
    by_cases hid : id = row.id
    · rw [hid, hget] at hnone
      cases hnone
    · exact h.present id (hothers id hid ▸ hnone)
  · intro hzero
    obtain ⟨hcount, htasks⟩ := applyLive_idle hzero
    exact htasks.trans (h.idle hcount)

theorem pageTracks_foldLive {checks : WireChecks} {ctx : WriteContext ρ} {link : ApplyLink}
    {before : TaskStore ρ} {rows : List WireTask} {page : PageState ρ}
    (h : PageTracks ctx before page) (hquiet : QuietRows checks ctx link page rows) :
    PageTracks ctx before (foldLive checks ctx link page rows) := by
  induction rows generalizing page with
  | nil => exact h
  | cons row rest ih => exact ih (pageTracks_applyLive checks link h hquiet.1) hquiet.2

/-! ### Absorbed rows -/

/-- The copy of the row's task has nothing to take from the row any more: no group of the
row is newer, but for a machine or a handover that the row may not write. -/
def Absorbed (self : Self) (link : ApplyLink) (tasks : Tasks ρ) (row : WireTask) : Prop :=
  ∃ held, tasks.get? row.id = some held ∧ ∀ group,
    row.s group ≤ effectiveStamp held group self.pfx ∨
      (group = .machine ∧ held.machine.getD self.id ≠ link.install) ∨
      (group = .handover ∧ row.handover.any (fun install => install ≠ link.install) = true)

omit [DecidableEq ρ] [Inhabited ρ] in
/-- No merge lowers a stamp. -/
theorem CopyMerge.le {ctx : WriteContext ρ} {link : ApplyLink} {tasks : List (BoardTask ρ)}
    {held task : BoardTask ρ} {row : WireTask} (h : CopyMerge ctx link tasks held row task)
    (group : TaskSyncGroup) :
    effectiveStamp held group ctx.self.pfx ≤ effectiveStamp task group ctx.self.pfx := by
  have hmerge := h.groups group
  generalize hstamp : some (effectiveStamp task group ctx.self.pfx) = stamp,
    groupDigest task group = content at hmerge
  cases hmerge with
  | kept _ => exact (Option.some.inj hstamp).ge
  | taken hlt _ => exact (Option.some.inj hstamp) ▸ hlt.le
  | reopened hreopens hlt =>
    rw [Option.some.inj hstamp]
    obtain rfl := hreopens.1
    exact (hlt.trans (lt_nextStamp _ _ _)).le
  | restored _ hsame => exact (Option.some.inj hstamp).trans hsame |>.ge

omit [DecidableEq ρ] [Inhabited ρ] in
/-- A merge takes the machine only from the peer that owns the copy. -/
theorem CopyMerge.machine_eq {ctx : WriteContext ρ} {link : ApplyLink} {tasks : List (BoardTask ρ)}
    {held task : BoardTask ρ} {row : WireTask} (h : CopyMerge ctx link tasks held row task)
    (hforeign : held.machine.getD ctx.self.id ≠ link.install) : task.machine = held.machine := by
  have hmerge := h.groups .machine
  have hrefuses : Refuses ctx link held row .machine := Or.inr (Or.inl ⟨rfl, hforeign⟩)
  generalize some (effectiveStamp task .machine ctx.self.pfx) = stamp,
    hcontent : groupDigest task .machine = content at hmerge
  cases hmerge with
  | kept _ =>
    simp only [groupDigest, GroupContent.machine.injEq] at hcontent
    exact hcontent
  | taken _ hwins => exact absurd hrefuses hwins
  | reopened hreopens _ => exact absurd hreopens.1 (by decide)
  | restored hrestores _ => exact absurd hrestores.1 (by decide)

theorem absorbed_applyLive (checks : WireChecks) {ctx : WriteContext ρ} {link : ApplyLink}
    {page : PageState ρ} {row other : WireTask} (h : Absorbed ctx.self link page.tasks other) :
    Absorbed ctx.self link (applyLive checks ctx link page row).tasks other := by
  obtain ⟨held, hget, hgroups⟩ := h
  by_cases hid : other.id = row.id
  · rw [hid] at hget
    obtain ⟨⟨task, hmerge, htask⟩, -, -⟩ := applyLive_present checks ctx link hget
    refine ⟨task, by rw [hid, htask], fun group => ?_⟩
    rcases hgroups group with hle | ⟨rfl, hforeign⟩ | hhandover
    · exact Or.inl (hle.trans (hmerge.le group))
    · exact Or.inr (Or.inl ⟨rfl, hmerge.machine_eq hforeign ▸ hforeign⟩)
    · exact Or.inr (Or.inr hhandover)
  · refine ⟨held, ?_, hgroups⟩
    cases hheld : page.tasks.get? row.id with
    | none => exact ((applyLive_absent checks ctx link hheld).2.1 other.id hid).trans hget
    | some _ => exact ((applyLive_present checks ctx link hheld).2.1 other.id hid).trans hget

/-- A row that was applied is absorbed. -/
theorem absorbed_of_applyLive (checks : WireChecks) (ctx : WriteContext ρ) (link : ApplyLink)
    (page : PageState ρ) (row : WireTask) :
    Absorbed ctx.self link (applyLive checks ctx link page row).tasks row := by
  cases hheld : page.tasks.get? row.id with
  | none =>
    obtain ⟨⟨task, harrived, hget⟩, -, -, -⟩ := applyLive_absent checks ctx link hheld
    refine ⟨task, hget, fun group => Or.inl ?_⟩
    exact (effectiveStamp_of_stored (harrived.stored group) _).ge
  | some held =>
    obtain ⟨⟨task, hmerge, hget⟩, -, -⟩ := applyLive_present checks ctx link hheld
    refine ⟨task, hget, fun group => ?_⟩
    have hgroup := hmerge.groups group
    generalize hstamp : some (effectiveStamp task group ctx.self.pfx) = stamp,
      groupDigest task group = content at hgroup
    cases hgroup with
    | kept hrefuses =>
      rcases hrefuses with ⟨hle, -⟩ | ⟨rfl, hforeign⟩ | hhandover
      · exact Or.inl (hle.trans (hmerge.le group))
      · exact Or.inr (Or.inl ⟨rfl, hmerge.machine_eq hforeign ▸ hforeign⟩)
      · exact Or.inr (Or.inr hhandover)
    | taken _ _ => exact Or.inl (Option.some.inj hstamp).ge
    | reopened hreopens _ =>
      left
      rw [Option.some.inj hstamp]
      obtain rfl := hreopens.1
      exact (lt_nextStamp _ _ _).le
    | restored _ _ => exact Or.inl (Option.some.inj hstamp).ge

theorem absorbed_foldLive {checks : WireChecks} {ctx : WriteContext ρ} {link : ApplyLink}
    {rows : List WireTask} {page : PageState ρ} {row : WireTask}
    (h : Absorbed ctx.self link page.tasks row ∨ row ∈ rows) :
    Absorbed ctx.self link (foldLive checks ctx link page rows).tasks row := by
  induction rows generalizing page with
  | nil =>
    rcases h with h | h
    · exact h
    · simp at h
  | cons first rest ih =>
    apply ih
    rcases h with h | h
    · exact Or.inl (absorbed_applyLive checks h)
    · rcases List.mem_cons.mp h with rfl | h
      · exact Or.inl (absorbed_of_applyLive checks ctx link page row)
      · exact Or.inr h

/-- Applying an absorbed row whose board preference is not wanted changes no task. -/
theorem applyLive_absorbed {checks : WireChecks} {ctx : WriteContext ρ} {link : ApplyLink}
    {page : PageState ρ} {row : WireTask} (h : Absorbed ctx.self link page.tasks row)
    (hquiet : QuietRow ctx page.tasks row)
    (hboard : ∀ held, page.tasks.get? row.id = some held →
      fillsBoard ctx.self link held row = false) :
    applyLive checks ctx link page row =
      { page with companion := { page.companion with stubs := page.companion.stubs.delete row.id } } := by
  obtain ⟨held, hget, hgroups⟩ := h
  obtain ⟨hrestore, -⟩ := hquiet held hget
  have hrefuses : ∀ group, Refuses ctx link held row group := by
    intro group
    rcases hgroups group with hle | hmachine | hhandover
    · exact Or.inl ⟨hle, hrestore group⟩
    · exact Or.inr (Or.inl hmachine)
    · exact Or.inr (Or.inr hhandover)
  have hnone := (mergeHeld_eq_none page.tasks.rows checks).mpr
    ⟨hrefuses, hboard held hget⟩
  unfold applyLive
  dsimp only
  rw [hget]
  dsimp only
  rw [hnone]

/-! ### Pages -/

/-- A page of live rows, and the write that applies it. -/
structure LivePage (ρ : Type) where
  ctx : WriteContext ρ
  now : Int
  rows : List WireTask

def LivePage.op (link : ApplyLink) (page : LivePage ρ) : BoardOp ρ :=
  .page page.ctx link page.now (page.rows.map .task)

/-- One page of live rows. -/
def pageStep (checks : WireChecks) (link : ApplyLink) (install : Install ρ) (page : LivePage ρ) :
    Install ρ × Answer :=
  boardStep checks install (page.op link)

/-- The page is accepted and its rows are live rows of one shared project: none meets a
tombstone, and none is a special case of the merge. -/
structure Accepts (checks : WireChecks) (link : ApplyLink) (own : Self) (project : String)
    (install : Install ρ) (page : LivePage ρ) : Prop where
  identity : page.ctx.self = own
  shared : project ∈ link.projects ∧ project ∈ page.ctx.linked
  rows : ∀ row ∈ page.rows, row.project = project
  live : ∀ row ∈ page.rows, install.store.companion.isTombstone row.id = false
  answer : ∃ changed, (pageStep checks link install page).2 = .applied ⟨changed, none⟩
  quiet : QuietRows checks page.ctx link (pageStart install.store) page.rows

omit [Inhabited ρ] in
theorem isTombstone_stubs (companion : Companion) (stubs : Table WithheldStub.id) (id : String) :
    ({ companion with stubs := stubs } : Companion).isTombstone id = companion.isTombstone id := rfl

/-- A page of live rows that is not refused is the fold over its rows. -/
theorem applyRows_live {checks : WireChecks} {ctx : WriteContext ρ} {link : ApplyLink}
    {project : String} {rows : List WireTask} {page page' : PageState ρ}
    (hlink : project ∈ link.projects) (hlinked : project ∈ ctx.linked)
    (hrows : ∀ row ∈ rows, row.project = project)
    (hlive : ∀ row ∈ rows, page.companion.isTombstone row.id = false)
    (h : applyRows checks ctx link page (rows.map .task) = .ok page') :
    page' = foldLive checks ctx link page rows := by
  induction rows generalizing page with
  | nil =>
    simp only [List.map_nil, applyRows, Except.ok.injEq] at h
    exact h.symm
  | cons row rest ih =>
    have hproject := hrows row List.mem_cons_self
    have hshared : ¬ ((WireRow.task row).project ∉ link.projects ∨
        (WireRow.task row).project ∉ ctx.linked) := by
      have hrow : (WireRow.task row).project = project := hproject
      rw [hrow]
      simp [hlink, hlinked]
    have htomb : ¬ page.companion.isTombstone (WireRow.task row).id = true := by
      have hrow := hlive row List.mem_cons_self
      rw [show (WireRow.task row).id = row.id from rfl, hrow]
      simp
    simp only [List.map_cons, applyRows, applyRow, if_neg hshared, if_neg htomb] at h
    split at h
    · rename_i mid hmid
      split at hmid
      · simp at hmid
      · simp only [Except.ok.injEq] at hmid
        subst hmid
        refine ih (fun other hmem => hrows other (List.mem_cons_of_mem _ hmem)) ?_ h
        intro other hmem
        rw [applyLive_companion, isTombstone_stubs]
        exact hlive other (List.mem_cons_of_mem _ hmem)
    · simp at h

/-- What an accepted page leaves: the rows' fold, committed unless it changed nothing. -/
theorem pageStep_ok {checks : WireChecks} {link : ApplyLink} {own : Self} {project : String}
    {install : Install ρ} {page : LivePage ρ} (h : Accepts checks link own project install page) :
    let out := foldLive checks page.ctx link (pageStart install.store) page.rows
    let next := pageStep checks link install page
    next.2 = .applied ⟨out.count, none⟩ ∧
      ((out.count = 0 ∧ next.1.store = ⟨install.store.tasks, out.companion⟩) ∨
        (out.count ≠ 0 ∧
          committedRows page.ctx out.preserved install.store.tasks out.tasks out.companion =
            .ok next.1.store)) := by
  intro out next
  obtain ⟨changed, hanswer⟩ := h.answer
  have hnext : next = pageStep checks link install page := rfl
  unfold pageStep LivePage.op boardStep at hanswer hnext
  dsimp only at hanswer hnext
  cases happly : applyTaskRows checks page.ctx link page.now install (page.rows.map .task) with
  | error error => simp [happly] at hanswer
  | ok applied =>
    obtain ⟨install', outcome⟩ := applied
    rw [happly] at hnext
    simp only [happly, Answer.applied.injEq] at hanswer
    rw [hnext]
    dsimp only
    rcases applyTaskRows_cases happly with ⟨rfl, hchanged, hempty⟩ | ⟨final, hpage, rfl, hstore⟩
    · have hrows : page.rows = [] := by
        simpa using hempty (by rw [hanswer])
      have hout : out = pageStart install'.store := by
        unfold out
        rw [hrows]
        rfl
      have hzero : changed = 0 := by
        rw [hanswer] at hchanged
        exact hchanged
      rw [hout, hanswer, hzero]
      exact ⟨rfl, Or.inl ⟨rfl, rfl⟩⟩
    · have hfinal : final = out := applyRows_live h.shared.1 h.shared.2 h.rows h.live hpage
      rw [hfinal] at hstore ⊢
      exact ⟨rfl, hstore⟩

/-- The rows of an accepted page, and what the store before them tracks. -/
theorem Accepts.pageTracks {checks : WireChecks} {link : ApplyLink} {own : Self}
    {project : String} {install : Install ρ} {page : LivePage ρ}
    (h : Accepts checks link own project install page) :
    PageTracks page.ctx install.store
      (foldLive checks page.ctx link (pageStart install.store) page.rows) := by
  refine pageTracks_foldLive ⟨?_, fun _ hnone => hnone, rfl, fun _ => rfl⟩ h.quiet
  intro task hmem group
  exact tracks_self (Table.get?_eq_some.mpr ⟨hmem, rfl⟩) group

/-- A copy after an accepted page is the copy that the rows left, as the commit keeps it. -/
theorem kept_of_page {checks : WireChecks} {link : ApplyLink} {own : Self} {project : String}
    {install : Install ρ} {page : LivePage ρ} (h : Accepts checks link own project install page)
    (id : String) :
    Option.Rel (Kept own)
      ((foldLive checks page.ctx link (pageStart install.store) page.rows).tasks.get? id)
      ((pageStep checks link install page).1.store.tasks.get? id) := by
  have htracks := h.pageTracks
  obtain ⟨-, hnext⟩ := pageStep_ok h
  rcases hnext with ⟨hzero, hstore⟩ | ⟨-, hcommit⟩
  · rw [hstore, htracks.idle hzero]
    cases install.store.tasks.get? id with
    | none => exact Option.Rel.none
    | some task =>
      exact Option.Rel.some ⟨rfl, rfl, fun _ _ => rfl, fun _ _ => rfl, fun _ => le_refl _, Or.inl rfl⟩
  · rw [htracks.preserved] at hcommit
    have hrel := get?_committedRows hcommit id
    generalize hleft : (foldLive checks page.ctx link (pageStart install.store) page.rows).tasks.get? id
      = left at hrel
    generalize (pageStep checks link install page).1.store.tasks.get? id = right at hrel
    cases hrel with
    | none => exact Option.Rel.none
    | @some task row hrow =>
      have hmem := (Table.get?_eq_some.mp hleft).1
      exact Option.Rel.some (h.identity ▸ kept_of_commit hrow (htracks.tracks task hmem))

omit [DecidableEq ρ] [Inhabited ρ] in
theorem Kept.register {keep : Bool} {own : Self} {task row : BoardTask ρ} (h : Kept own task row)
    {group : TaskSyncGroup} (hgroup : group ∈ sharedGroups) :
    copyRegister keep own.pfx row group = copyRegister keep own.pfx task group := by
  have hmachine := (ne_of_mem_sharedGroups hgroup).1
  unfold copyRegister
  rw [h.stamp group hmachine, h.content group hmachine]

/-- The views after a page are those that its rows left. -/
theorem view_of_page {checks : WireChecks} {link : ApplyLink} {own : Self} {project : String}
    {install : Install ρ} {page : LivePage ρ} (h : Accepts checks link own project install page)
    (keep : Bool) (id : String) {group : TaskSyncGroup} (hgroup : group ∈ sharedGroups) :
    viewOf keep own.pfx (pageStep checks link install page).1.store.tasks id group =
      viewOf keep own.pfx
        (foldLive checks page.ctx link (pageStart install.store) page.rows).tasks id group := by
  have hrel := kept_of_page h id
  unfold viewOf
  generalize (foldLive checks page.ctx link (pageStart install.store) page.rows).tasks.get? id
    = left at hrel
  generalize (pageStep checks link install page).1.store.tasks.get? id = right at hrel
  cases hrel with
  | none => rfl
  | some hkept => exact congrArg some (hkept.register hgroup)

/-- The review rounds of the copy are those that the rows left. -/
theorem ownsNoReview_of_page {checks : WireChecks} {link : ApplyLink} {own : Self}
    {project : String} {install : Install ρ} {page : LivePage ρ}
    (h : Accepts checks link own project install page) {keep : Bool} {id : String}
    (howns : OwnsNoReview keep
      (foldLive checks page.ctx link (pageStart install.store) page.rows).tasks id) :
    OwnsNoReview keep (pageStep checks link install page).1.store.tasks id := by
  intro hkeep row hrow
  have hrel := kept_of_page h id
  rw [hrow] at hrel
  have hleft := howns hkeep
  generalize (foldLive checks page.ctx link (pageStart install.store) page.rows).tasks.get? id
    = left at hrel hleft
  cases hrel with
  | some hkept => exact hkept.ownReview.trans (hleft _ rfl)

/-- **An accepted page absorbs its rows.** -/
theorem page_absorbs {checks : WireChecks} {link : ApplyLink} {own : Self} {project : String}
    {install : Install ρ} {page : LivePage ρ} (h : Accepts checks link own project install page)
    {keep : Bool} {id : String} (howns : OwnsNoReview keep install.store.tasks id)
    (hreplica : keep = true → ∀ row ∈ page.rows, row.id = id →
      row.prototypeReviewReplica.isSome = true) :
    OwnsNoReview keep (pageStep checks link install page).1.store.tasks id ∧
      ∀ group ∈ sharedGroups,
        viewOf keep own.pfx (pageStep checks link install page).1.store.tasks id group =
          absorb (viewOf keep own.pfx install.store.tasks id group)
            (registersOf keep id group page.rows) := by
  have hstart : OwnsNoReview keep (pageStart install.store).tasks id := howns
  obtain ⟨howns', hviews⟩ := view_foldLive h.quiet hstart hreplica
  refine ⟨ownsNoReview_of_page h howns', fun group hgroup => ?_⟩
  rw [view_of_page h keep id hgroup]
  rw [h.identity] at hviews
  exact hviews group hgroup

/-! ### Runs of pages -/

/-- The rows of the pages, in their order. -/
def rowsOf (pages : List (LivePage ρ)) : List WireTask :=
  (pages.map LivePage.rows).flatten

omit [DecidableEq ρ] [Inhabited ρ] in
theorem registersOf_append (keep : Bool) (id : String) (group : TaskSyncGroup)
    (front back : List WireTask) :
    registersOf keep id group (front ++ back) =
      registersOf keep id group front ++ registersOf keep id group back := by
  unfold registersOf
  rw [List.filter_append, List.map_append]

/-- **A run of pages absorbs the rows of the pages**, in their order. -/
theorem view_after_pages {checks : WireChecks} {link : ApplyLink} {own : Self} {project : String}
    {install : Install ρ} {pages : List (LivePage ρ)}
    (h : Runs.EveryCall (pageStep checks link) (Accepts checks link own project) install pages)
    {keep : Bool} {id : String} (howns : OwnsNoReview keep install.store.tasks id)
    (hreplica : keep = true → ∀ row ∈ rowsOf pages, row.id = id →
      row.prototypeReviewReplica.isSome = true)
    {group : TaskSyncGroup} (hgroup : group ∈ sharedGroups) :
    viewOf keep own.pfx (Runs.after (pageStep checks link) install pages).store.tasks id group =
      absorb (viewOf keep own.pfx install.store.tasks id group)
        (registersOf keep id group (rowsOf pages)) := by
  induction pages generalizing install with
  | nil => rfl
  | cons page rest ih =>
    have hrows : rowsOf (page :: rest) = page.rows ++ rowsOf rest := rfl
    rw [hrows] at hreplica ⊢
    have hfirst : Accepts checks link own project install page := h [] page rest rfl
    obtain ⟨howns', hviews⟩ := page_absorbs hfirst howns
      (fun hkeep row hmem => hreplica hkeep row (List.mem_append_left _ hmem))
    have hrest := ih h.tail howns'
      (fun hkeep row hmem => hreplica hkeep row (List.mem_append_right _ hmem))
    rw [registersOf_append, absorb_append, ← hviews group hgroup]
    exact hrest

/-! ### Applying a row again -/

/-- The row was applied: its copy absorbed it, and no stub of it is left. -/
def Applied (own : Self) (link : ApplyLink) (store : TaskStore ρ) (row : WireTask) : Prop :=
  Absorbed own link store.tasks row ∧ store.companion.stubs.has row.id = false

omit [DecidableEq ρ] [Inhabited ρ] in
/-- The commit leaves an absorbed row absorbed, for the own install is not the peer. -/
theorem Kept.absorbed {own : Self} {link : ApplyLink} {task copy : BoardTask ρ}
    (h : Kept own task copy) (hpeer : link.install ≠ own.id) {row : WireTask}
    (hgroups : ∀ group, row.s group ≤ effectiveStamp task group own.pfx ∨
      (group = .machine ∧ task.machine.getD own.id ≠ link.install) ∨
      (group = .handover ∧ row.handover.any (fun install => install ≠ link.install) = true)) :
    ∀ group, row.s group ≤ effectiveStamp copy group own.pfx ∨
      (group = .machine ∧ copy.machine.getD own.id ≠ link.install) ∨
      (group = .handover ∧ row.handover.any (fun install => install ≠ link.install) = true) := by
  intro group
  rcases hgroups group with hle | ⟨rfl, hforeign⟩ | hhandover
  · exact Or.inl (hle.trans (h.raised group))
  · refine Or.inr (Or.inl ⟨rfl, ?_⟩)
    rcases h.machine with hmachine | hmachine
    · rw [hmachine]
      exact hforeign
    · rw [hmachine]
      cases hheld : task.machine with
      | none => exact fun heq => hpeer heq.symm
      | some machine =>
        rw [hheld] at hforeign
        by_cases hempty : machine = ""
        · rw [hempty]
          exact fun heq => hpeer heq.symm
        · have hkept : nonEmpty (some machine) = some machine := by
            simp [nonEmpty, hempty]
          rw [hkept]
          exact hforeign
  · exact Or.inr (Or.inr hhandover)

/-- The stubs that the rows of a page leave. -/
theorem stubs_foldLive {checks : WireChecks} {ctx : WriteContext ρ} {link : ApplyLink}
    {rows : List WireTask} {page : PageState ρ} {id : String}
    (h : page.companion.stubs.has id = false ∨ ∃ row ∈ rows, row.id = id) :
    (foldLive checks ctx link page rows).companion.stubs.has id = false := by
  induction rows generalizing page with
  | nil =>
    rcases h with hstub | ⟨row, hmem, -⟩
    · exact hstub
    · simp at hmem
  | cons row rest ih =>
    apply ih
    rw [applyLive_companion]
    dsimp only
    by_cases hid : id = row.id
    · left
      rw [Bool.eq_false_iff]
      intro hhas
      exact ((Table.has_delete _ _ _).mp hhas).1 hid
    · rcases h with hstub | ⟨other, hmem, hother⟩
      · left
        rw [Bool.eq_false_iff] at hstub ⊢
        intro hhas
        exact hstub ((Table.has_delete _ _ _).mp hhas).2
      · rcases List.mem_cons.mp hmem with rfl | hmem
        · exact absurd hother.symm hid
        · exact Or.inr ⟨other, hmem, hother⟩

/-- An accepted page leaves its own rows, and those applied before, applied. -/
theorem applied_pageStep {checks : WireChecks} {link : ApplyLink} {own : Self} {project : String}
    {install : Install ρ} {page : LivePage ρ} (h : Accepts checks link own project install page)
    (hpeer : link.install ≠ own.id) {row : WireTask}
    (hrow : Applied own link install.store row ∨ row ∈ page.rows) :
    Applied own link (pageStep checks link install page).1.store row := by
  constructor
  · have habsorbed : Absorbed page.ctx.self link
        (foldLive checks page.ctx link (pageStart install.store) page.rows).tasks row := by
      apply absorbed_foldLive
      rw [h.identity]
      exact hrow.imp_left And.left
    rw [h.identity] at habsorbed
    obtain ⟨held, hheld, hgroups⟩ := habsorbed
    have hrel := kept_of_page h row.id
    rw [hheld] at hrel
    generalize hright : (pageStep checks link install page).1.store.tasks.get? row.id = right at hrel
    cases hrel with
    | @some _ copy hkept => exact ⟨copy, hright, hkept.absorbed hpeer hgroups⟩
  · have hstubs : (foldLive checks page.ctx link (pageStart install.store)
        page.rows).companion.stubs.has row.id = false := by
      apply stubs_foldLive
      rcases hrow with happlied | hmem
      · exact Or.inl happlied.2
      · exact Or.inr ⟨row, hmem, rfl⟩
    obtain ⟨-, ⟨-, hstore⟩ | ⟨-, hcommit⟩⟩ := pageStep_ok h
    · rw [hstore]
      exact hstubs
    · rw [stubs_committedRows hcommit]
      exact hstubs

/-- An absorbed row leaves every register as it is. -/
theorem view_applyLive_absorbed (checks : WireChecks) {ctx : WriteContext ρ} {link : ApplyLink}
    {page : PageState ρ} {row : WireTask} (h : Absorbed ctx.self link page.tasks row)
    (hquiet : QuietRow ctx page.tasks row) (keep : Bool) (id : String) {group : TaskSyncGroup}
    (hgroup : group ∈ sharedGroups) :
    viewOf keep ctx.self.pfx (applyLive checks ctx link page row).tasks id group =
      viewOf keep ctx.self.pfx page.tasks id group := by
  obtain ⟨held, hget, hgroups⟩ := h
  obtain ⟨⟨task, hmerge, htask⟩, hothers, -⟩ := applyLive_present checks ctx link hget
  by_cases hid : id = row.id
  · have hle : row.s group ≤ heldStamp ctx held group := by
      obtain ⟨hmachine, hhandover⟩ := ne_of_mem_sharedGroups hgroup
      rcases hgroups group with hle | ⟨heq, -⟩ | ⟨heq, -⟩
      · exact hle
      · exact absurd heq hmachine
      · exact absurd heq hhandover
    obtain ⟨hrestore, -⟩ := hquiet held hget
    have hkept := (hmerge.groups group).quiet hgroup (hrestore group)
      (fun hreopens => absurd hreopens.1 (not_lt.mpr hle))
    rcases hkept with ⟨-, hstamp, hcontent⟩ | ⟨hlt, -, -⟩
    · unfold viewOf copyRegister
      rw [hid, htask, hget, Option.map_some, Option.map_some, Option.some.inj hstamp, hcontent]
      exact rfl
    · exact absurd hlt (not_lt.mpr hle)
  · exact viewOf_congr (hothers id hid) group

theorem view_foldLive_absorbed {checks : WireChecks} {ctx : WriteContext ρ} {link : ApplyLink}
    {rows : List WireTask} {page : PageState ρ} (hquiet : QuietRows checks ctx link page rows)
    (h : ∀ row ∈ rows, Absorbed ctx.self link page.tasks row) (keep : Bool) (id : String)
    {group : TaskSyncGroup} (hgroup : group ∈ sharedGroups) :
    viewOf keep ctx.self.pfx (foldLive checks ctx link page rows).tasks id group =
      viewOf keep ctx.self.pfx page.tasks id group := by
  induction rows generalizing page with
  | nil => exact rfl
  | cons row rest ih =>
    have hfirst := view_applyLive_absorbed checks (h row List.mem_cons_self) hquiet.1 keep id hgroup
    rw [← hfirst]
    exact ih hquiet.2 (fun other hmem =>
      absorbed_applyLive checks (h other (List.mem_cons_of_mem _ hmem)))

/-- Applied rows whose board preference is not wanted change nothing at all. -/
theorem foldLive_applied {checks : WireChecks} {ctx : WriteContext ρ} {link : ApplyLink}
    {rows : List WireTask} {page : PageState ρ} (hquiet : QuietRows checks ctx link page rows)
    (h : ∀ row ∈ rows, Absorbed ctx.self link page.tasks row ∧
      page.companion.stubs.has row.id = false)
    (hboard : ∀ row ∈ rows, ∀ held, page.tasks.get? row.id = some held →
      fillsBoard ctx.self link held row = false) :
    foldLive checks ctx link page rows = page := by
  induction rows with
  | nil => exact rfl
  | cons row rest ih =>
    obtain ⟨habsorbed, hstub⟩ := h row List.mem_cons_self
    have hsame : applyLive checks ctx link page row = page := by
      rw [applyLive_absorbed habsorbed hquiet.1 (hboard row List.mem_cons_self),
        Table.delete_of_absent hstub]
    have hrest := hquiet.2
    rw [hsame] at hrest
    have hfold : foldLive checks ctx link page (row :: rest) =
        foldLive checks ctx link (applyLive checks ctx link page row) rest := rfl
    rw [hfold, hsame]
    exact ih hrest (fun other hmem => h other (List.mem_cons_of_mem _ hmem))
      (fun other hmem => hboard other (List.mem_cons_of_mem _ hmem))

/-- **A page of applied rows** leaves every register; and the store as it is, counting
none, unless one of its rows fills a board preference. -/
theorem page_of_applied {checks : WireChecks} {link : ApplyLink} {own : Self} {project : String}
    {install : Install ρ} {page : LivePage ρ} (h : Accepts checks link own project install page)
    (happlied : ∀ row ∈ page.rows, Applied own link install.store row) :
    (∀ keep id, ∀ group ∈ sharedGroups,
        viewOf keep own.pfx (pageStep checks link install page).1.store.tasks id group =
          viewOf keep own.pfx install.store.tasks id group) ∧
      ((∀ row ∈ page.rows, ∀ held, install.store.tasks.get? row.id = some held →
          fillsBoard own link held row = false) →
        (pageStep checks link install page).1.store = install.store ∧
          (pageStep checks link install page).2 = .applied ⟨0, none⟩) := by
  have hown := h.identity
  constructor
  · intro keep id group hgroup
    rw [view_of_page h keep id hgroup, ← hown]
    apply view_foldLive_absorbed h.quiet _ keep id hgroup
    intro row hmem
    rw [hown]
    exact (happlied row hmem).1
  · intro hboard
    have hfold : foldLive checks page.ctx link (pageStart install.store) page.rows =
        pageStart install.store := by
      apply foldLive_applied h.quiet
      · intro row hmem
        rw [hown]
        exact happlied row hmem
      · intro row hmem held hheld
        rw [hown]
        exact hboard row hmem held hheld
    obtain ⟨hanswer, hstore⟩ := pageStep_ok h
    rw [hfold] at hanswer hstore
    refine ⟨?_, hanswer⟩
    rcases hstore with ⟨-, hstore⟩ | ⟨hcount, -⟩
    · exact hstore
    · exact absurd rfl hcount

/-- Every row of a run of accepted pages is applied at its end. -/
theorem applied_after_pages {checks : WireChecks} {link : ApplyLink} {own : Self}
    {project : String} {install : Install ρ} {pages : List (LivePage ρ)}
    (h : Runs.EveryCall (pageStep checks link) (Accepts checks link own project) install pages)
    (hpeer : link.install ≠ own.id) {row : WireTask}
    (hrow : Applied own link install.store row ∨ row ∈ rowsOf pages) :
    Applied own link (Runs.after (pageStep checks link) install pages).store row := by
  induction pages generalizing install with
  | nil =>
    rcases hrow with happlied | hmem
    · exact happlied
    · simp [rowsOf] at hmem
  | cons page rest ih =>
    have hrows : rowsOf (page :: rest) = page.rows ++ rowsOf rest := rfl
    rw [hrows, List.mem_append] at hrow
    apply ih h.tail
    rcases hrow with happlied | hmem | hmem
    · exact Or.inl (applied_pageStep (h [] page rest rfl) hpeer (Or.inl happlied))
    · exact Or.inl (applied_pageStep (h [] page rest rfl) hpeer (Or.inr hmem))
    · exact Or.inr hmem

end Pages

end Delegatus.LinkedBoards
