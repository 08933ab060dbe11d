import Delegatus.HeadlessRounds

/-!
# The rounds of the tables and the log of changed flows

The rounds that the tables hold are told apart by their flow and number, and a flow whose rounds or
order change is in the change log under a new revision, until the log is cut past it.
-/

namespace Delegatus.History

open RowGroups OrderedLists

variable (dateParse : String → Option Int)

/-! ### The rounds of a flow -/

theorem joinRound_key {db : Db} {round : RoundRow} {row : HeadlessRow} (h : joinRound db round = some row) :
    roundKey row = (round.rowKey, round.round) := by
  obtain ⟨input, -, rfl⟩ := Option.map_eq_some_iff.mp h
  rfl

theorem joinRound_rowKey {db : Db} {round : RoundRow} {row : HeadlessRow} (h : joinRound db round = some row) :
    row.rowKey = round.rowKey := congrArg Prod.fst (joinRound_key h)

theorem mem_heldRounds {db : Db} {row : HeadlessRow} : row ∈ heldRounds db ↔
    ∃ round ∈ group RoundRow.rowKey db.rounds row.rowKey, joinRound db round = some row := by
  unfold heldRounds
  rw [List.mem_filterMap]
  constructor
  · rintro ⟨round, hround, hjoin⟩
    exact ⟨round, mem_group.mpr ⟨hround, (joinRound_rowKey hjoin).symm⟩, hjoin⟩
  · rintro ⟨round, hround, hjoin⟩
    exact ⟨round, (mem_group.mp hround).1, hjoin⟩

theorem mem_fullRounds {db : Db} {row : HeadlessRow} : row ∈ fullRounds db ↔ row ∈ heldRounds db :=
  List.mem_mergeSort

theorem mem_flowRounds {db : Db} {flowKey : String} {row : HeadlessRow} :
    row ∈ flowRounds db flowKey ↔ row ∈ heldRounds db ∧ row.rowKey = flowKey := by
  unfold flowRounds
  rw [List.mem_mergeSort, List.mem_filterMap, mem_heldRounds]
  constructor
  · rintro ⟨round, hround, hjoin⟩
    have hkey : row.rowKey = flowKey := (joinRound_rowKey hjoin).trans (mem_group.mp hround).2
    exact ⟨⟨round, hkey ▸ hround, hjoin⟩, hkey⟩
  · rintro ⟨⟨round, hround, hjoin⟩, rfl⟩
    exact ⟨round, hround, hjoin⟩

/-- The tables of a flow say which rounds it has. -/
theorem heldRounds_congr {db next : Db} {row : HeadlessRow}
    (h : projected next ⟨.flows, row.rowKey⟩ = projected db ⟨.flows, row.rowKey⟩) :
    row ∈ heldRounds next ↔ row ∈ heldRounds db := by
  have hrounds : group RoundRow.rowKey next.rounds row.rowKey = group RoundRow.rowKey db.rounds row.rowKey :=
    congrArg Projection.rounds h
  have hinputs : group InputRow.ref next.inputs ⟨.flows, row.rowKey⟩ = group InputRow.ref db.inputs ⟨.flows, row.rowKey⟩ :=
    congrArg Projection.inputs h
  rw [mem_heldRounds, mem_heldRounds, hrounds]
  apply exists_congr
  intro round
  apply and_congr_right
  intro hround
  unfold joinRound
  rw [(mem_group.mp hround).2, hinputs]

/-! ### Rounds are told apart -/

theorem roundRows_pairwise (rowKey : String) (input : Input) :
    (roundRows rowKey input).Pairwise fun a b => a.round ≠ b.round := by
  cases input with
  | pipeline => exact List.Pairwise.nil
  | flow reviewerMode rounds =>
    unfold roundRows
    dsimp only
    split
    · induction rounds using List.reverseRecOn with
      | nil => exact List.Pairwise.nil
      | append_singleton front last ih =>
        rw [List.mapIdx_concat, List.reduceOption_append]
        refine List.pairwise_append.mpr ⟨ih, ?_, ?_⟩
        · rw [List.reduceOption_singleton]
          exact Option.pairwise_toList
        · intro a ha b hb
          obtain ⟨index, hindex, hvalue⟩ := List.mem_mapIdx.mp (List.reduceOption_mem_iff.mp ha)
          have hlast := List.mem_singleton.mp (List.reduceOption_mem_iff.mp hb)
          have hround : ∀ (place : ℕ) (round : Round) (value : RoundRow), (round.reviewerPid.bind fun pid =>
              if 0 < pid then some (⟨rowKey, place, round.reviewerPath, round.reviewerConversationId, pid,
                round.reviewerIdentity⟩ : RoundRow) else none) = some value → value.round = place := by
            intro place round value hsome
            obtain ⟨pid, -, hpid⟩ := Option.bind_eq_some_iff.mp hsome
            split at hpid
            · rw [← Option.some.inj hpid]
            · contradiction
          rw [hround _ _ _ hvalue, hround _ _ _ hlast.symm]
          exact Nat.ne_of_lt hindex
    · exact List.Pairwise.nil

theorem group_rounds_pairwise {db : Db} (h : Refines dateParse db) (flowKey : String) :
    (group RoundRow.rowKey db.rounds flowKey).Pairwise fun a b => a.round ≠ b.round := by
  obtain ⟨stored, hprojected, -⟩ := h.source ⟨.flows, flowKey⟩
  have hrounds : group RoundRow.rowKey db.rounds flowKey =
      (stored.bind (inputOf ⟨.flows, flowKey⟩)).elim [] fun row => roundRows flowKey row.input :=
    congrArg Projection.rounds hprojected
  rw [hrounds]
  cases stored.bind (inputOf ⟨.flows, flowKey⟩) with
  | none => exact List.Pairwise.nil
  | some row => exact roundRows_pairwise flowKey row.input

theorem heldRounds_nodup {db : Db} (h : Refines dateParse db) : ((heldRounds db).map roundKey).Nodup := by
  have hpairs : (db.rounds.map fun round => (round.rowKey, round.round)).Nodup := by
    rw [List.Nodup, List.pairwise_map, List.pairwise_iff_getElem]
    intro i j hi hj hij hsame
    have hgroup := group_rounds_pairwise dateParse h db.rounds[i].rowKey
    unfold group at hgroup
    rw [List.pairwise_filter, List.pairwise_iff_getElem] at hgroup
    obtain ⟨hkey, hround⟩ := Prod.mk.inj hsame
    exact hgroup i j hi hj hij (by simp) (by simp [hkey]) hround
  have hsub : (heldRounds db).map roundKey =
      (db.rounds.filterMap fun round => (joinRound db round).map roundKey) := by
    unfold heldRounds
    rw [List.map_filterMap]
  have hkeep : (db.rounds.filterMap fun round => (joinRound db round).map roundKey).Sublist
      (db.rounds.map fun round => (round.rowKey, round.round)) := by
    induction db.rounds with
    | nil => exact List.Sublist.slnil
    | cons round rest ih =>
      rw [List.map_cons]
      cases hjoin : joinRound db round with
      | none =>
        rw [List.filterMap_cons_none (by rw [hjoin, Option.map_none])]
        exact List.Sublist.cons _ ih
      | some row =>
        rw [List.filterMap_cons_some (by rw [hjoin, Option.map_some]), joinRound_key hjoin]
        exact List.Sublist.cons_cons _ ih
  rw [hsub]
  exact hpairs.sublist hkeep

theorem flowRounds_perm (db : Db) (flowKey : String) :
    (flowRounds db flowKey).Perm ((heldRounds db).filter fun row => row.rowKey = flowKey) := by
  have hsame : (group RoundRow.rowKey db.rounds flowKey).filterMap (joinRound db) =
      (heldRounds db).filter fun row => row.rowKey = flowKey := by
    unfold group heldRounds
    rw [List.filterMap_filter, List.filter_filterMap]
    apply List.filterMap_congr
    intro round _
    cases hjoin : joinRound db round with
    | none => rw [ite_self, Option.filter_none]
    | some row =>
      rw [Option.filter_some, joinRound_rowKey hjoin]
  rw [← hsame]
  exact List.mergeSort_perm _ _

/-! ### The log -/

/-- What a step does to the rounds: nothing, or one flow changes under a new revision. -/
inductive RoundStep (db next : Db) : Prop
  | kept (revision : next.revisions.flowRevision = db.revisions.flowRevision)
    (log : next.revisions.flowChanges = db.revisions.flowChanges)
    (rounds : ∀ row, row ∈ heldRounds next ↔ row ∈ heldRounds db)
  | changed (flowKey : String) (revision : next.revisions.flowRevision = db.revisions.flowRevision + 1)
    (log : next.revisions.flowChanges =
      (db.revisions.flowChanges ++ [(db.revisions.flowRevision + 1, flowKey)]).filter fun change =>
        decide (db.revisions.flowRevision + 1 ≤ change.1 + 4096))
    (rounds : ∀ row : HeadlessRow, row.rowKey ≠ flowKey → (row ∈ heldRounds next ↔ row ∈ heldRounds db))

theorem forgetEmptyProjects_flow (inputs : List InputRow) (revisions : Revisions) (projects : List String) :
    (forgetEmptyProjects inputs revisions projects).flowRevision = revisions.flowRevision ∧
      (forgetEmptyProjects inputs revisions projects).flowChanges = revisions.flowChanges := by
  unfold forgetEmptyProjects
  induction projects generalizing revisions with
  | nil => exact ⟨rfl, rfl⟩
  | cons project rest ih =>
    rw [List.foldl_cons]
    by_cases hheld : inputs.any (isPipelineInput project) = true
    · rw [if_pos hheld]
      exact ih revisions
    · rw [if_neg hheld]
      exact ih _

theorem raised_flow (old : Revisions) (ref : Ref) (countChanged : Bool) :
    (raised old ref countChanged).flowRevision =
        (if ref.collection = .flows then old.flowRevision + 1 else old.flowRevision) ∧
      (raised old ref countChanged).flowChanges =
        if ref.collection = .flows then
          (old.flowChanges ++ [(old.flowRevision + 1, ref.rowKey)]).filter fun change =>
            decide (old.flowRevision + 1 ≤ change.1 + 4096)
        else old.flowChanges := by
  by_cases hflows : ref.collection = .flows
  · cases countChanged <;> simp [raised, hflows]
  · cases countChanged <;> simp [raised, hflows]

theorem advance_flow (old : Revisions) (ref : Ref) (projects : List String) (countChanged : Bool) :
    (advance old ref projects countChanged).flowRevision = (raised old ref countChanged).flowRevision ∧
      (advance old ref projects countChanged).flowChanges = (raised old ref countChanged).flowChanges := by
  rw [advance_eq]
  generalize raised old ref countChanged = start
  induction projects generalizing start with
  | nil => exact ⟨rfl, rfl⟩
  | cons project rest ih =>
    rw [List.foldl_cons]
    obtain ⟨hrevision, hlog⟩ := ih (setRevision countChanged start project)
    rw [hrevision, hlog]
    cases countChanged <;> exact ⟨rfl, rfl⟩

theorem roundStep_projectOne {db : Db} (h : Refines dateParse db) (ref : Ref) :
    RoundStep db (projectOne dateParse db ref).1 := by
  obtain ⟨stored, hprojected, -⟩ := h.source ref
  have hprojects := projectOne_projects dateParse hprojected
  have hother : ∀ row : HeadlessRow, (⟨.flows, row.rowKey⟩ : Ref) ≠ ref →
      (row ∈ heldRounds (projectOne dateParse db ref).1 ↔ row ∈ heldRounds db) :=
    fun row hne => heldRounds_congr (hprojects.other _ hne)
  have hrevisions : (projectOne dateParse db ref).1 = db ∨ ∃ inputs projects countChanged,
      (projectOne dateParse db ref).1.revisions =
        forgetEmptyProjects inputs (advance db.revisions ref projects countChanged) projects := by
    unfold projectOne
    dsimp only
    split
    · exact Or.inl rfl
    · exact Or.inr ⟨_, _, _, rfl⟩
  rcases hrevisions with hsame | ⟨inputs, projects, countChanged, hrevisions⟩
  · rw [hsame]
    exact .kept rfl rfl fun _ => Iff.rfl
  · obtain ⟨hforgetRevision, hforgetLog⟩ :=
      forgetEmptyProjects_flow inputs (advance db.revisions ref projects countChanged) projects
    obtain ⟨hadvanceRevision, hadvanceLog⟩ := advance_flow db.revisions ref projects countChanged
    obtain ⟨hraisedRevision, hraisedLog⟩ := raised_flow db.revisions ref countChanged
    rw [← hrevisions] at hforgetRevision hforgetLog
    have hrevision := hforgetRevision.trans (hadvanceRevision.trans hraisedRevision)
    have hlog := hforgetLog.trans (hadvanceLog.trans hraisedLog)
    by_cases hflows : ref.collection = .flows
    · rw [if_pos hflows] at hrevision hlog
      refine .changed ref.rowKey hrevision hlog fun row hkey => hother row ?_
      rintro rfl
      exact hkey rfl
    · rw [if_neg hflows] at hrevision hlog
      refine .kept hrevision hlog fun row => hother row ?_
      rintro rfl
      exact hflows rfl

variable {ρ : Type*} [DecidableEq ρ]

/-- **One step of the tables, as the rounds see it.** -/
theorem roundStep {s : State ρ} (h : Refines dateParse s.db) (event : Event ρ) :
    RoundStep s.db (step dateParse s event).1.db := by
  have hqueued : ∀ (db : Db) (rows : Entries Ref StoredRow) (pending : List Ref),
      RoundStep db { db with stateRows := rows, pending := pending } := fun db rows pending =>
    .kept rfl rfl fun _ => Iff.rfl
  cases event with
  | insert ref row =>
    simp only [step]
    split
    · exact .kept rfl rfl fun _ => Iff.rfl
    · rw [enqueue_eq]
      exact hqueued _ _ _
  | update old new row =>
    simp only [step]
    split
    · exact .kept rfl rfl fun _ => Iff.rfl
    · rw [enqueue_eq, enqueue_eq]
      exact hqueued _ _ _
  | delete ref =>
    simp only [step]
    split
    · rw [enqueue_eq]
      exact hqueued _ _ _
    · exact .kept rfl rfl fun _ => Iff.rfl
  | capture reader batch =>
    simp only [step]
    split
    · exact .kept rfl rfl fun _ => Iff.rfl
    · exact .kept rfl rfl fun _ => Iff.rfl
  | project reader =>
    simp only [step]
    split
    · exact .kept rfl rfl fun _ => Iff.rfl
    · next ref rest _ =>
      split
      · cases roundStep_projectOne dateParse h ref with
        | kept revision log rounds => exact .kept revision log rounds
        | changed flowKey revision log rounds => exact .changed flowKey revision log rounds
      · exact .kept rfl rfl fun _ => Iff.rfl

end Delegatus.History
