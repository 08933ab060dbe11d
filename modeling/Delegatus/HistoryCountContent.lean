import Delegatus.HistoryCounts
import Delegatus.HistoryRefinement
import Delegatus.SlidingWindows
import Mathlib.Algebra.BigOperators.Group.Multiset.Basic

/-!
# What a projection does to the counted attempts

The attempts that a project counts, as the tables join them, and the change that one projection makes:
the attempts of the old signature go from the old project, and those of the new one come to the new
project.
-/

namespace Delegatus.History

open RowGroups

variable (dateParse : String → Option Int)

/-! ### The joined attempts -/

/-- The project, role and time of an attempt, as the tables join it. -/
def joinedAttempt (db : Db) (attempt : AttemptRow) : Option (String × String × Int) :=
  if attempt.ref.collection = .flows then none
  else
    (group InputRow.ref db.inputs attempt.ref).head?.bind fun input => input.project.bind fun project =>
      ((group RunRow.ref db.runs attempt.ref).find? fun run => run.run = attempt.run).bind fun run =>
        attempt.startedMs.map fun time => (project, attempt.role.getD run.role, time)

def joined (db : Db) : List (String × String × Int) := db.attempts.filterMap (joinedAttempt db)

theorem startedAttempts_eq (db : Db) (projects : List String) :
    startedAttempts db projects =
      ((joined db).filter fun entry => entry.1 ∈ projects).map Prod.snd := by
  unfold startedAttempts joined
  rw [List.filter_filterMap, List.map_filterMap]
  apply List.filterMap_congr
  intro attempt _
  unfold inputOfAttempt joinedAttempt
  by_cases hflows : attempt.ref.collection = .flows
  · rw [if_pos hflows, if_pos hflows]
    rfl
  rw [if_neg hflows, if_neg hflows]
  cases (group InputRow.ref db.inputs attempt.ref).head? with
  | none => rfl
  | some input =>
    rw [Option.bind_some]
    cases hproject : input.project with
    | none =>
      have hnone : (some input).filter (fun input => input.project.any
          fun project => decide (project ∈ projects)) = none := by
        rw [Option.filter_some, hproject]
        rfl
      rw [hnone]
      rfl
    | some project =>
      rw [Option.filter_some, hproject, Option.any_some, Option.bind_some]
      by_cases hmem : project ∈ projects
      · rw [if_pos (decide_eq_true hmem), Option.bind_some]
        cases (group RunRow.ref db.runs attempt.ref).find? fun run => run.run = attempt.run with
        | none => rfl
        | some run =>
          rw [Option.bind_some, Option.bind_some]
          cases attempt.startedMs with
          | none => rfl
          | some time =>
            rw [Option.map_some, Option.map_some, Option.filter_some, if_pos (decide_eq_true hmem)]
            rfl
      · rw [if_neg (by simpa using hmem), Option.bind_none]
        cases (group RunRow.ref db.runs attempt.ref).find? fun run => run.run = attempt.run with
        | none => rfl
        | some run =>
          rw [Option.bind_some]
          cases attempt.startedMs with
          | none => rfl
          | some time =>
            rw [Option.map_some, Option.filter_some, if_neg (by simpa using hmem)]
            rfl

/-- The entries of one project. -/
def entriesOf (entries : List (String × String × Int)) (project : String) : Multiset (String × Int) :=
  ((entries.filter fun entry => entry.1 = project).map Prod.snd : List (String × Int))

/-- The attempts that a project counts. -/
def datedOf (db : Db) (project : String) : Multiset (String × Int) := entriesOf (joined db) project

theorem entriesOf_sum (entries : List (String × String × Int)) {projects : List String}
    (hnodup : projects.Nodup) :
    (((entries.filter fun entry => entry.1 ∈ projects).map Prod.snd : List (String × Int)) :
        Multiset (String × Int)) = (projects.map (entriesOf entries)).sum := by
  induction entries with
  | nil =>
    show 0 = (projects.map fun _ => (0 : Multiset (String × Int))).sum
    simp
  | cons entry rest ih =>
    have hone : ∀ project, entriesOf (entry :: rest) project =
        (if entry.1 = project then {entry.2} else 0) + entriesOf rest project := by
      intro project
      unfold entriesOf
      by_cases hproject : entry.1 = project
      · rw [List.filter_cons_of_pos (by simpa using hproject), if_pos hproject, List.map_cons,
          Multiset.singleton_add, Multiset.cons_coe]
      · rw [List.filter_cons_of_neg (by simpa using hproject), if_neg hproject, zero_add]
    have hhead : (projects.map fun project => (if entry.1 = project then {entry.2} else 0 :
        Multiset (String × Int))).sum = if entry.1 ∈ projects then {entry.2} else 0 := by
      clear ih hone
      induction projects with
      | nil => rfl
      | cons first others ihp =>
        obtain ⟨hfresh, hothers⟩ := List.nodup_cons.mp hnodup
        rw [List.map_cons, List.sum_cons, ihp hothers]
        by_cases hfirst : entry.1 = first
        · rw [if_pos hfirst, if_neg (hfirst ▸ hfresh), if_pos (hfirst ▸ List.mem_cons_self), add_zero]
        · rw [if_neg hfirst, zero_add]
          by_cases hother : entry.1 ∈ others
          · rw [if_pos hother, if_pos (List.mem_cons_of_mem _ hother)]
          · rw [if_neg hother, if_neg]
            intro hmem
            rcases List.mem_cons.mp hmem with hsame | hmem
            · exact hfirst hsame
            · exact hother hmem
    rw [List.map_congr_left fun project _ => hone project, List.sum_map_add, hhead, ← ih]
    by_cases hmem : entry.1 ∈ projects
    · rw [List.filter_cons_of_pos (by simpa using hmem), if_pos hmem, List.map_cons,
        Multiset.singleton_add, Multiset.cons_coe]
    · rw [List.filter_cons_of_neg (by simpa using hmem), if_neg hmem, zero_add]

theorem coe_startedAttempts (db : Db) {projects : List String} (hnodup : projects.Nodup) :
    (startedAttempts db projects : Multiset (String × Int)) = (projects.map (datedOf db)).sum := by
  rw [startedAttempts_eq, entriesOf_sum (joined db) hnodup]
  rfl

/-! ### The attempts of one identity -/

/-- The times of the attempts are those of their texts. -/
def TimesParsed (db : Db) : Prop :=
  ∀ attempt ∈ db.attempts, attempt.startedMs = dateParse (attempt.startedAt.getD "")

/-- The dated attempts of a signature, in a project. -/
def signatureEntries (project : Option String) (signature : CountSignature) : List (String × String × Int) :=
  match project with
  | none => []
  | some project => signature.attempts.filterMap fun attempt =>
      (dateParse (attempt.2.getD "")).map fun time => (project, attempt.1, time)

theorem joined_group {db : Db} (htimes : TimesParsed dateParse db) {ref : Ref}
    (hflows : ref.collection ≠ .flows) :
    (group AttemptRow.ref db.attempts ref).filterMap (joinedAttempt db) =
      signatureEntries dateParse (projectOf db ref) (countSignature db ref) := by
  have hentry : ∀ attempt ∈ group AttemptRow.ref db.attempts ref, joinedAttempt db attempt =
      (projectOf db ref).bind fun project =>
        ((group RunRow.ref db.runs ref).find? fun run => run.run = attempt.run).bind fun run =>
          (dateParse (attempt.startedAt.getD "")).map fun time => (project, attempt.role.getD run.role, time) := by
    intro attempt hattempt
    obtain ⟨hmem, href⟩ := mem_group.mp hattempt
    unfold joinedAttempt projectOf
    rw [href, if_neg hflows, htimes attempt hmem, Option.bind_assoc]
  rw [List.filterMap_congr hentry]
  unfold signatureEntries countSignature
  cases projectOf db ref with
  | none => simp
  | some project =>
    dsimp only
    rw [List.filterMap_filterMap]
    apply List.filterMap_congr
    intro attempt _
    rw [Option.bind_some]
    cases (group RunRow.ref db.runs ref).find? fun run => run.run = attempt.run with
    | none => rfl
    | some run => rfl

/-! ### The signature of the tables -/

theorem find?_mapIdx {α β : Type*} {f : ℕ → α → β} {place : β → ℕ} (hplace : ∀ index a, place (f index a) = index)
    (as : List α) (index : ℕ) :
    ((as.mapIdx f).find? fun b => place b = index) = as[index]?.map (f index) := by
  induction as using List.reverseRecOn with
  | nil => rfl
  | append_singleton as last ih =>
    rw [List.mapIdx_concat, List.find?_append, ih]
    rcases Nat.lt_trichotomy index as.length with hless | hsame | hmore
    · rw [List.getElem?_append_left hless, List.getElem?_eq_getElem hless]
      rfl
    · rw [hsame, List.getElem?_eq_none (Nat.le_refl _), List.getElem?_append_right (Nat.le_refl _),
        Nat.sub_self]
      simp [hplace]
    · rw [List.getElem?_eq_none (by omega), List.getElem?_eq_none (by
        rw [List.length_append, List.length_singleton]
        omega)]
      have hother : place (f as.length last) ≠ index := by
        rw [hplace]
        omega
      simp [hother]

theorem filterMap_mapIdx {α β γ : Type*} {f : ℕ → α → β} {pick : β → Option γ} {value : α → γ}
    (h : ∀ index a, pick (f index a) = some (value a)) (as : List α) :
    (as.mapIdx f).filterMap pick = as.map value := by
  induction as using List.reverseRecOn with
  | nil => rfl
  | append_singleton as last ih =>
    rw [List.mapIdx_concat, List.filterMap_append, ih, List.map_append, List.filterMap_cons, h]
    rfl

/-- **The tables of an identity say what its compact input says.** -/
theorem countSignature_of_tables {db : Db} {ref : Ref} {row : Option InputRow}
    (h : projected db ref = rowsOf dateParse ref row) :
    countSignature db ref = row.elim ⟨[], []⟩ fun row => countSignatureFromInput row.input := by
  have hruns : group RunRow.ref db.runs ref = row.elim [] fun row => runRows ref row.input :=
    congrArg Projection.runs h
  have hattempts : group AttemptRow.ref db.attempts ref =
      row.elim [] fun row => attemptRows dateParse ref row.input := congrArg Projection.attempts h
  unfold countSignature
  rw [hruns, hattempts]
  cases row with
  | none => rfl
  | some row =>
    dsimp only [Option.elim_some]
    have hroles := (countSignatureFromInput_roles ref row.input).symm
    cases hinput : row.input with
    | flow reviewerMode rounds => rfl
    | pipeline closedAt roles runs =>
      rw [hinput] at hroles
      rw [hroles]
      simp only [countSignatureFromInput, attemptRows, runRows, List.filterMap_flatten]
      congr 1
      rw [List.flatMap_def]
      congr 1
      apply List.ext_getElem
      · simp
      · intro index hleft hright
        have hindex : index < runs.length := by simpa using hright
        simp only [List.getElem_map, List.getElem_mapIdx]
        have hrun := @find?_mapIdx Run RunRow (fun index run => ⟨ref, index, roleOf roles run.stageId⟩)
          RunRow.run (fun _ _ => rfl) runs index
        rw [List.getElem?_eq_getElem hindex, Option.map_some] at hrun
        apply filterMap_mapIdx
        intro place attempt
        rw [attemptRow, hrun]
        rfl

/-! ### One projection -/

/-- What the attempts of a signature are to a project. -/
def datedShare (owner : Option String) (signature : CountSignature) (project : String) :
    Multiset (String × Int) := entriesOf (signatureEntries dateParse owner signature) project

theorem entriesOf_append (front back : List (String × String × Int)) (project : String) :
    entriesOf (front ++ back) project = entriesOf front project + entriesOf back project := by
  unfold entriesOf
  rw [List.filter_append, List.map_append, Multiset.coe_add]

theorem entriesOf_perm {entries entries' : List (String × String × Int)} (h : entries.Perm entries')
    (project : String) : entriesOf entries project = entriesOf entries' project :=
  Multiset.coe_eq_coe.mpr ((h.filter _).map _)

/-- The attempts of the other identities. -/
def othersJoined (db : Db) (ref : Ref) : List (String × String × Int) :=
  (db.attempts.filter fun attempt => attempt.ref ≠ ref).filterMap (joinedAttempt db)

theorem joined_perm (db : Db) (ref : Ref) : (joined db).Perm (othersJoined db ref ++
    (group AttemptRow.ref db.attempts ref).filterMap (joinedAttempt db)) := by
  unfold joined othersJoined group
  rw [← List.filterMap_append]
  apply List.Perm.filterMap
  have hsplit := List.filter_append_perm (fun attempt : AttemptRow => decide (attempt.ref ≠ ref)) db.attempts
  simp only [decide_not, Bool.not_not] at hsplit
  simpa using hsplit.symm

theorem datedOf_eq {db : Db} (htimes : TimesParsed dateParse db) {ref : Ref} (hflows : ref.collection ≠ .flows)
    (project : String) :
    datedOf db project = entriesOf (othersJoined db ref) project +
      datedShare dateParse (projectOf db ref) (countSignature db ref) project := by
  unfold datedOf datedShare
  rw [entriesOf_perm (joined_perm db ref), entriesOf_append, joined_group dateParse htimes hflows]

/-- A flow has no attempts that are counted. -/
theorem datedOf_eq_of_flows {db : Db} {ref : Ref} (hflows : ref.collection = .flows) (project : String) :
    datedOf db project = entriesOf (othersJoined db ref) project := by
  have hnone : (group AttemptRow.ref db.attempts ref).filterMap (joinedAttempt db) = [] := by
    rw [List.filterMap_eq_nil_iff]
    intro attempt hattempt
    unfold joinedAttempt
    rw [if_pos ((mem_group.mp hattempt).2 ▸ hflows)]
  unfold datedOf
  rw [entriesOf_perm (joined_perm db ref), hnone, List.append_nil]

theorem othersJoined_replaceRows (db : Db) {ref : Ref} {row : Option InputRow}
    (hrow : ∀ value, row = some value → value.ref = ref) :
    othersJoined (replaceRows dateParse db ref row) ref = othersJoined db ref := by
  have hattempts : ((replaceRows dateParse db ref row).attempts.filter fun attempt => attempt.ref ≠ ref) =
      db.attempts.filter fun attempt => attempt.ref ≠ ref := by
    have hnew : (row.elim [] fun row => attemptRows dateParse ref row.input).filter
        (fun attempt => decide (attempt.ref ≠ ref)) = [] := by
      rw [List.filter_eq_nil_iff]
      intro attempt hattempt
      have href := mem_elim (fun row => attemptRows_ref dateParse ref row.input) attempt hattempt
      simp [href]
    show (regroup AttemptRow.ref db.attempts ref _).filter _ = _
    rw [regroup, List.filter_append, hnew, List.append_nil, List.filter_filter]
    simp
  unfold othersJoined
  rw [hattempts]
  apply List.filterMap_congr
  intro attempt hattempt
  have hne : attempt.ref ≠ ref := by simpa using (List.mem_filter.mp hattempt).2
  have hother := projected_replaceRows_of_ne dateParse db hrow hne
  have hinputs : group InputRow.ref (replaceRows dateParse db ref row).inputs attempt.ref =
      group InputRow.ref db.inputs attempt.ref := congrArg Projection.inputs hother
  have hruns : group RunRow.ref (replaceRows dateParse db ref row).runs attempt.ref =
      group RunRow.ref db.runs attempt.ref := congrArg Projection.runs hother
  unfold joinedAttempt
  rw [hinputs, hruns]

theorem timesParsed_replaceRows {db : Db} (h : TimesParsed dateParse db) (ref : Ref) (row : Option InputRow) :
    TimesParsed dateParse (replaceRows dateParse db ref row) := by
  intro attempt hattempt
  have hmem : attempt ∈ regroup AttemptRow.ref db.attempts ref
      (row.elim [] fun row => attemptRows dateParse ref row.input) := hattempt
  rcases List.mem_append.mp hmem with hold | hnew
  · exact h attempt (List.mem_filter.mp hold).1
  · cases row with
    | none => exact nomatch hnew
    | some row =>
      dsimp only [Option.elim_some] at hnew
      cases hinput : row.input with
      | flow reviewerMode rounds =>
        rw [hinput] at hnew
        exact nomatch hnew
      | pipeline closedAt roles runs =>
        rw [hinput] at hnew
        obtain ⟨rows, hrows, hinner⟩ := List.mem_flatten.mp hnew
        obtain ⟨index, hindex, rfl⟩ := List.mem_mapIdx.mp hrows
        obtain ⟨place, hplace, rfl⟩ := List.mem_mapIdx.mp hinner
        rfl

/-- **What the replaced rows do to the counted attempts**: the old share goes, the new one comes. -/
theorem datedOf_replaceRows {db : Db} (htimes : TimesParsed dateParse db) {ref : Ref} {row : Option InputRow}
    (hflows : ref.collection ≠ .flows) (hrow : ∀ value, row = some value → value.ref = ref)
    (project : String) :
    datedOf (replaceRows dateParse db ref row) project +
        datedShare dateParse (projectOf db ref) (countSignature db ref) project =
      datedOf db project + datedShare dateParse (row.bind InputRow.project)
        (row.elim ⟨[], []⟩ fun row => countSignatureFromInput row.input) project := by
  have hself := projected_replaceRows_self dateParse db hrow
  have hproject := projectOf_replaceRows dateParse db hrow ref
  rw [if_pos rfl] at hproject
  rw [datedOf_eq dateParse htimes hflows, datedOf_eq dateParse (timesParsed_replaceRows dateParse htimes ref row) hflows,
    othersJoined_replaceRows dateParse db hrow, countSignature_of_tables dateParse hself, hproject]
  exact add_right_comm _ _ _

/-! ### The revisions of one projection -/

theorem forgetEmptyProjects_count (inputs : List InputRow) (revisions : Revisions) (projects : List String) :
    (forgetEmptyProjects inputs revisions projects).countRevision = revisions.countRevision ∧
      ∀ q, (forgetEmptyProjects inputs revisions projects).countProjects.at? q =
        if q ∈ projects ∧ inputs.any (isPipelineInput q) = false then none
        else revisions.countProjects.at? q := by
  unfold forgetEmptyProjects
  induction projects generalizing revisions with
  | nil => exact ⟨rfl, fun q => by simp⟩
  | cons project rest ih =>
    rw [List.foldl_cons]
    by_cases hheld : inputs.any (isPipelineInput project) = true
    · rw [if_pos hheld]
      obtain ⟨hrevision, hentries⟩ := ih revisions
      refine ⟨hrevision, fun q => ?_⟩
      rw [hentries q]
      by_cases hq : q = project
      · subst hq
        simp [hheld]
      · simp [hq]
    · rw [if_neg hheld]
      obtain ⟨hrevision, hentries⟩ := ih { revisions with
        projects := revisions.projects.delete project
        countProjects := revisions.countProjects.delete project }
      refine ⟨hrevision, fun q => ?_⟩
      rw [hentries q, Entries.at?_delete]
      by_cases hq : q = project
      · subst hq
        simp [Bool.eq_false_iff.mpr hheld]
      · simp [hq]

theorem raised_count (old : Revisions) (ref : Ref) (countChanged : Bool) :
    (raised old ref countChanged).countRevision =
        (if countChanged then old.countRevision + 1 else old.countRevision) ∧
      (raised old ref countChanged).countProjects = old.countProjects := by
  by_cases hflows : ref.collection = .flows
  · cases countChanged <;> simp [raised, hflows]
  · cases countChanged <;> simp [raised, hflows]

theorem setRevisions_count (countChanged : Bool) (projects : List String) (start : Revisions) :
    (projects.foldl (setRevision countChanged) start).countRevision = start.countRevision ∧
      ∀ q, (projects.foldl (setRevision countChanged) start).countProjects.at? q =
        if q ∈ projects ∧ countChanged = true then some start.countRevision
        else start.countProjects.at? q := by
  induction projects generalizing start with
  | nil => exact ⟨rfl, fun q => by simp⟩
  | cons project rest ih =>
    rw [List.foldl_cons]
    obtain ⟨hsame, hkept⟩ := ih (setRevision countChanged start project)
    cases countChanged with
    | false => exact ⟨hsame, fun q => (hkept q).trans (by simp [setRevision])⟩
    | true =>
      refine ⟨hsame, fun q => (hkept q).trans ?_⟩
      have hset : (setRevision true start project).countProjects =
          start.countProjects.set (project, start.countRevision) := rfl
      have hrevision : (setRevision true start project).countRevision = start.countRevision := rfl
      rw [hset, hrevision, Entries.at?_set]
      by_cases hq : q = project
      · simp [hq]
      · simp [hq]

theorem advance_count (old : Revisions) (ref : Ref) (projects : List String) (countChanged : Bool) :
    (advance old ref projects countChanged).countRevision =
        (if countChanged then old.countRevision + 1 else old.countRevision) ∧
      ∀ q, (advance old ref projects countChanged).countProjects.at? q =
        if q ∈ projects ∧ countChanged = true then some (old.countRevision + 1)
        else old.countProjects.at? q := by
  obtain ⟨hraised, hentries⟩ := raised_count old ref countChanged
  obtain ⟨hrevision, hset⟩ := setRevisions_count countChanged projects (raised old ref countChanged)
  rw [advance_eq]
  refine ⟨hrevision.trans hraised, fun q => (hset q).trans ?_⟩
  rw [hraised, hentries]
  cases countChanged <;> simp

/-- Entries of `history_count_projects` are no newer than the count revision, and a project without
one has no pipelines. -/
structure Revised (db : Db) : Prop where
  bounded : ∀ q revision, db.revisions.countProjects.at? q = some revision → revision ≤ db.revisions.countRevision
  absent : ∀ q, db.revisions.countProjects.at? q = none → db.inputs.any (isPipelineInput q) = false

/-- What one projection does to what the projects count. -/
structure CountStep (db next : Db) (update : Option CountUpdate) : Prop where
  revised : Revised next
  timesParsed : TimesParsed dateParse next
  unchanged : update = none → (∀ q, datedOf next q = datedOf db q) ∧
    (∀ key, tally next key = tally db key) ∧
    (∀ q, next.revisions.countProjects.at? q = db.revisions.countProjects.at? q) ∧
    next.revisions.countRevision = db.revisions.countRevision
  moved : ∀ change, update = some change →
    (∀ q, datedOf next q + datedShare dateParse change.oldProject change.oldSignature q =
      datedOf db q + datedShare dateParse change.newProject change.newSignature q) ∧
    (∀ key, tally next key + share change.oldProject change.oldSignature.roles key =
      tally db key + share change.newProject change.newSignature.roles key) ∧
    next.revisions.countRevision = db.revisions.countRevision + 1 ∧
    ∀ q, next.revisions.countProjects.at? q = none ∨
      next.revisions.countProjects.at? q = some (db.revisions.countRevision + 1) ∨
      (next.revisions.countProjects.at? q = db.revisions.countProjects.at? q ∧
        change.oldProject ≠ some q ∧ change.newProject ≠ some q)

/-- A project whose entry is gone, or that never had one, has no pipelines. -/
theorem isPipelineInput_of_project {db : Db} {ref : Ref} (hflows : ref.collection ≠ .flows) {q : String}
    (h : projectOf db ref = some q) : db.inputs.any (isPipelineInput q) = true := by
  obtain ⟨row, hhead, hproject⟩ := Option.bind_eq_some_iff.mp h
  obtain ⟨hmem, href⟩ := mem_group.mp (List.mem_of_mem_head? hhead)
  rw [List.any_eq_true]
  refine ⟨row, hmem, ?_⟩
  simp [isPipelineInput, href, hflows, hproject]

theorem any_replaceRows {db : Db} {ref : Ref} {row : Option InputRow} {q : String}
    (hnew : ∀ value, row = some value → isPipelineInput q value = false)
    (h : db.inputs.any (isPipelineInput q) = false) :
    (replaceRows dateParse db ref row).inputs.any (isPipelineInput q) = false := by
  show (regroup InputRow.ref db.inputs ref row.toList).any (isPipelineInput q) = false
  rw [List.any_eq_false] at h ⊢
  intro input hinput
  rcases List.mem_append.mp hinput with hold | hmem
  · exact h input (List.mem_filter.mp hold).1
  · rw [hnew input (Option.mem_toList.mp hmem)]
    decide

/-- The entries of the projects after a changed projection. -/
theorem countProjects_projectOne (old : Revisions) (inputs : List InputRow) (ref : Ref) (projects : List String)
    (countChanged : Bool) (q : String) :
    (forgetEmptyProjects inputs (advance old ref projects countChanged) projects).countProjects.at? q =
      if q ∈ projects ∧ inputs.any (isPipelineInput q) = false then none
      else if q ∈ projects ∧ countChanged = true then some (old.countRevision + 1)
      else old.countProjects.at? q := by
  rw [(forgetEmptyProjects_count inputs _ projects).2 q, (advance_count old ref projects countChanged).2 q]

theorem countRevision_projectOne (old : Revisions) (inputs : List InputRow) (ref : Ref) (projects : List String)
    (countChanged : Bool) :
    (forgetEmptyProjects inputs (advance old ref projects countChanged) projects).countRevision =
      if countChanged then old.countRevision + 1 else old.countRevision := by
  rw [(forgetEmptyProjects_count inputs _ projects).1, (advance_count old ref projects countChanged).1]

/-- The flows among the identities change no count. -/
theorem tally_replaceRows_flows {db : Db} {ref : Ref} {stored current : Option StoredRow}
    (hflows : ref.collection = .flows) (h : projected db ref = projection dateParse ref stored)
    (hrow : ∀ value, current.bind (inputOf ref) = some value → value.ref = ref) :
    tally (replaceRows dateParse db ref (current.bind (inputOf ref))) = tally db := by
  have hruns : group RunRow.ref db.runs ref = [] :=
    (congrArg Projection.runs h).trans (projection_runs_of_flows dateParse hflows stored)
  have hnone : (rowsOf dateParse ref (current.bind (inputOf ref))).runs = [] :=
    projection_runs_of_flows dateParse hflows current
  apply tally_replaceRows_same dateParse db hrow
  intro key
  rw [rolesOf, hruns, hnone, List.map_nil, share_nil, share_nil]

theorem countStep_flows {db : Db} (hrevised : Revised db) (htimes : TimesParsed dateParse db) {ref : Ref}
    {stored : Option StoredRow} (h : projected db ref = projection dateParse ref stored)
    (hflows : ref.collection = .flows) :
    CountStep dateParse db (projectOne dateParse db ref).1 (projectOne dateParse db ref).2 := by
  have hrow : ∀ value, (db.stateRows.at? ref).bind (inputOf ref) = some value → value.ref = ref := by
    intro value hvalue
    obtain ⟨current, -, hinput⟩ := Option.bind_eq_some_iff.mp hvalue
    exact inputOf_ref hinput
  unfold projectOne
  dsimp only
  split
  · exact ⟨hrevised, htimes, fun _ => ⟨fun _ => rfl, fun _ => rfl, fun _ => rfl, rfl⟩, fun _ hnone => by cases hnone⟩
  · have hprojects : projectsOf ref (group InputRow.ref db.inputs ref).head?
        ((db.stateRows.at? ref).bind (inputOf ref)) = [] := if_pos hflows
    have hchanged : ∀ change : Bool, (decide (ref.collection ≠ .flows) && change) = false := by
      intro change
      rw [decide_eq_false (not_not.mpr hflows), Bool.false_and]
    simp only [hprojects, hchanged]
    have hentries := countProjects_projectOne db.revisions
      (replaceRows dateParse db ref ((db.stateRows.at? ref).bind (inputOf ref))).inputs ref [] false
    have hrevision := countRevision_projectOne db.revisions
      (replaceRows dateParse db ref ((db.stateRows.at? ref).bind (inputOf ref))).inputs ref [] false
    simp only [List.not_mem_nil, false_and, if_false, Bool.false_eq_true] at hentries hrevision
    refine ⟨⟨?_, ?_⟩, timesParsed_replaceRows dateParse htimes ref _, fun _ => ⟨?_, ?_, hentries, hrevision⟩,
      fun _ hnone => by cases hnone⟩
    · intro q revision hat
      have hold := hrevised.bounded q revision ((hentries q).symm.trans hat)
      exact hold.trans hrevision.ge
    · intro q hat
      apply any_replaceRows dateParse
      · intro value hvalue
        simp [isPipelineInput, hrow value hvalue, hflows]
      · exact hrevised.absent q ((hentries q).symm.trans hat)
    · intro q
      have hothers := othersJoined_replaceRows dateParse db hrow
      exact (datedOf_eq_of_flows hflows q).trans ((congrArg (entriesOf · q) hothers).trans
        (datedOf_eq_of_flows hflows q).symm)
    · exact fun key => congrFun (tally_replaceRows_flows dateParse hflows h hrow) key

/-- The step of an identity whose rows were replaced. -/
theorem countStep_replaced {db next : Db} (hrevised : Revised db) (htimes : TimesParsed dateParse db) {ref : Ref}
    (hflows : ref.collection ≠ .flows) {row : Option InputRow} {countChanged : Bool}
    (hrow : ∀ value, row = some value → value.ref = ref)
    (hnext : next = { replaceRows dateParse db ref row with
      countRoles := next.countRoles
      revisions := forgetEmptyProjects (replaceRows dateParse db ref row).inputs
        (advance db.revisions ref (projectsOf ref (group InputRow.ref db.inputs ref).head? row) countChanged)
        (projectsOf ref (group InputRow.ref db.inputs ref).head? row) })
    (hsame : countChanged = false → projectOf db ref = row.bind InputRow.project ∧
      some (countSignature db ref) = row.map fun row => countSignatureFromInput row.input) :
    CountStep dateParse db next (if countChanged then
      some ⟨projectOf db ref, row.bind InputRow.project, countSignature db ref,
        (row.map fun row => countSignatureFromInput row.input).getD ⟨[], []⟩⟩ else none) := by
  have hdated := datedOf_replaceRows dateParse htimes hflows hrow
  have htally := tally_replaceRows dateParse db hrow
  have hmem : ∀ q, q ∈ projectsOf ref (group InputRow.ref db.inputs ref).head? row ↔
      projectOf db ref = some q ∨ row.bind InputRow.project = some q := by
    intro q
    rw [projectsOf, if_neg hflows, List.mem_dedup, List.reduceOption_mem_iff]
    simp [projectOf, eq_comm]
  have hentries : ∀ q, next.revisions.countProjects.at? q =
      if (projectOf db ref = some q ∨ row.bind InputRow.project = some q) ∧
          next.inputs.any (isPipelineInput q) = false then none
      else if (projectOf db ref = some q ∨ row.bind InputRow.project = some q) ∧ countChanged = true then
        some (db.revisions.countRevision + 1)
      else db.revisions.countProjects.at? q := by
    intro q
    have hset := countProjects_projectOne db.revisions (replaceRows dateParse db ref row).inputs ref
      (projectsOf ref (group InputRow.ref db.inputs ref).head? row) countChanged q
    simp only [hmem] at hset
    rw [hnext]
    exact hset
  have hrevision : next.revisions.countRevision =
      if countChanged then db.revisions.countRevision + 1 else db.revisions.countRevision := by
    rw [hnext]
    exact countRevision_projectOne ..
  have hinputs : next.inputs = (replaceRows dateParse db ref row).inputs := by rw [hnext]
  have hkept : ∀ q, row.bind InputRow.project ≠ some q → db.inputs.any (isPipelineInput q) = false →
      next.inputs.any (isPipelineInput q) = false := by
    intro q hother hnone
    rw [hinputs]
    apply any_replaceRows dateParse _ hnone
    intro value hvalue
    rw [hvalue, Option.bind_some] at hother
    simp [isPipelineInput, hother]
  have hown : countChanged = false → ∀ q, projectOf db ref = some q ∨ row.bind InputRow.project = some q →
      next.inputs.any (isPipelineInput q) = true := by
    intro hunchanged q hq
    have hnew : row.bind InputRow.project = some q := by
      rw [(hsame hunchanged).1, or_self] at hq
      exact hq
    rw [hinputs]
    apply isPipelineInput_of_project hflows
    rw [projectOf_replaceRows dateParse db hrow, if_pos rfl]
    exact hnew
  have hdatedNext : ∀ q, datedOf next q = datedOf (replaceRows dateParse db ref row) q := by
    intro q
    rw [hnext]
    rfl
  have htallyNext : ∀ key, tally next key = tally (replaceRows dateParse db ref row) key := by
    intro key
    rw [hnext]
    rfl
  have hsignature : (row.map fun row => countSignatureFromInput row.input).getD ⟨[], []⟩ =
      row.elim ⟨[], []⟩ fun row => countSignatureFromInput row.input := by
    cases row <;> rfl
  have hroles : (rowsOf dateParse ref row).runs.map RunRow.role =
      (row.elim ⟨[], []⟩ fun row => countSignatureFromInput row.input : CountSignature).roles := by
    rw [rowsOf_roles]
    cases row <;> rfl
  refine ⟨⟨fun q revision hat => ?_, fun q hat => ?_⟩, ?_, fun hnone => ?_, fun change hchange => ?_⟩
  · rw [hentries] at hat
    rw [hrevision]
    split at hat
    · contradiction
    split at hat
    · next hset =>
      rw [if_pos hset.2]
      exact (Option.some.inj hat).ge
    · have hold := hrevised.bounded q revision hat
      split <;> omega
  · rw [hentries] at hat
    by_cases hq : projectOf db ref = some q ∨ row.bind InputRow.project = some q
    · by_cases hgone : next.inputs.any (isPipelineInput q) = false
      · exact hgone
      · rw [if_neg fun hboth => hgone hboth.2] at hat
        cases hcount : countChanged with
        | true =>
          rw [if_pos ⟨hq, hcount⟩] at hat
          contradiction
        | false => exact absurd (hown hcount q hq) (by
            rw [if_neg (by simp [hcount])] at hat
            have hbefore := hrevised.absent q hat
            rw [(hsame hcount).1, or_self, ← (hsame hcount).1] at hq
            rw [isPipelineInput_of_project hflows hq] at hbefore
            contradiction)
    · rw [if_neg fun hboth => hq hboth.1, if_neg fun hboth => hq hboth.1] at hat
      exact hkept q (fun hnew => hq (Or.inr hnew)) (hrevised.absent q hat)
  · have htimesReplaced := timesParsed_replaceRows dateParse htimes ref row
    rw [hnext]
    exact htimesReplaced
  · cases hcount : countChanged with
    | true =>
      rw [hcount, if_pos rfl] at hnone
      contradiction
    | false =>
      obtain ⟨hproject, hsignatures⟩ := hsame hcount
      obtain ⟨input, hinput, hsome⟩ := Option.map_eq_some_iff.mp hsignatures.symm
      have helim : (row.elim ⟨[], []⟩ fun row => countSignatureFromInput row.input) = countSignature db ref := by
        rw [hinput]
        exact hsome
      refine ⟨fun q => ?_, fun key => ?_, fun q => ?_, ?_⟩
      · have hq := hdated q
        rw [helim, ← hproject] at hq
        rw [hdatedNext]
        exact add_right_cancel hq
      · have hkey := htally key
        rw [hroles, helim, ← hproject] at hkey
        rw [htallyNext]
        exact add_right_cancel hkey
      · rw [hentries, hcount]
        have hfirst : ¬((projectOf db ref = some q ∨ row.bind InputRow.project = some q) ∧
            next.inputs.any (isPipelineInput q) = false) := by
          rintro ⟨hq, hgone⟩
          rw [hown hcount q hq] at hgone
          contradiction
        rw [if_neg hfirst, if_neg (by simp)]
      · rw [hrevision, hcount]
        rfl
  · cases hcount : countChanged with
    | false =>
      rw [hcount] at hchange
      contradiction
    | true =>
      rw [hcount, if_pos rfl, Option.some.injEq] at hchange
      subst hchange
      refine ⟨fun q => ?_, fun key => ?_, ?_, fun q => ?_⟩
      · rw [hdatedNext, hsignature]
        exact hdated q
      · have hkey := htally key
        rw [hroles] at hkey
        rw [htallyNext, hsignature]
        exact hkey
      · rw [hrevision, hcount]
        rfl
      · rw [hentries, hcount]
        by_cases hq : projectOf db ref = some q ∨ row.bind InputRow.project = some q
        · by_cases hgone : next.inputs.any (isPipelineInput q) = false
          · exact Or.inl (if_pos ⟨hq, hgone⟩)
          · rw [if_neg fun hboth => hgone hboth.2, if_pos ⟨hq, rfl⟩]
            exact Or.inr (Or.inl rfl)
        · rw [if_neg fun hboth => hq hboth.1, if_neg fun hboth => hq hboth.1]
          exact Or.inr (Or.inr ⟨rfl, fun hold => hq (Or.inl hold), fun hnew => hq (Or.inr hnew)⟩)

theorem countStep_pipelines {db : Db} (hrevised : Revised db) (htimes : TimesParsed dateParse db) {ref : Ref}
    (hflows : ref.collection ≠ .flows) :
    CountStep dateParse db (projectOne dateParse db ref).1 (projectOne dateParse db ref).2 := by
  have hrow : ∀ value, (db.stateRows.at? ref).bind (inputOf ref) = some value → value.ref = ref := by
    intro value hvalue
    obtain ⟨current, -, hinput⟩ := Option.bind_eq_some_iff.mp hvalue
    exact inputOf_ref hinput
  unfold projectOne
  dsimp only
  split
  · exact ⟨hrevised, htimes, fun _ => ⟨fun _ => rfl, fun _ => rfl, fun _ => rfl, rfl⟩, fun _ hnone => by cases hnone⟩
  · refine countStep_replaced dateParse hrevised htimes hflows hrow rfl fun hunchanged => ?_
    simp only [decide_eq_true hflows, Bool.true_and, Bool.or_eq_false_iff, decide_eq_false_iff_not, not_not] at hunchanged
    exact hunchanged

/-- **One projection moves the counted attempts and runs by its update.** -/
theorem projectOne_counts {db : Db} (hrefines : Refines dateParse db) (hrevised : Revised db)
    (htimes : TimesParsed dateParse db) (ref : Ref) :
    CountStep dateParse db (projectOne dateParse db ref).1 (projectOne dateParse db ref).2 := by
  by_cases hflows : ref.collection = .flows
  · obtain ⟨stored, hprojected, -⟩ := hrefines.source ref
    exact countStep_flows dateParse hrevised htimes hprojected hflows
  · exact countStep_pipelines dateParse hrevised htimes hflows

end Delegatus.History
