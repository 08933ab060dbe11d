import Delegatus.HistoryProjection
import Mathlib.Data.List.ReduceOption

/-!
# The history tables are the projection of the stored rows

`projection` is what a stored row stands for in the history tables.  In every state that writers and
readers reach, each identity has the projection of some stored row, and an identity that is not
queued that of its current row; the role counters count the projected runs of each project
(`history_refines`).  The step of a reader that leaves a row as it is finds the same compact input, on
which the rest of the projection depends alone.
-/

namespace Delegatus.History

open RowGroups Runs

variable (dateParse : String → Option Int)

/-! ### Projections -/

structure Projection where
  inputs : List InputRow
  runs : List RunRow
  attempts : List AttemptRow
  rounds : List RoundRow

/-- The rows that an accepted record stands for. -/
def rowsOf (ref : Ref) (row : Option InputRow) : Projection where
  inputs := row.toList
  runs := row.elim [] fun row => runRows ref row.input
  attempts := row.elim [] fun row => attemptRows dateParse ref row.input
  rounds :=
    if ref.collection = .flows then row.elim [] fun row => roundRows ref.rowKey row.input else []

/-- The projection of a stored row: nothing when there is none, or when its record is rejected. -/
def projection (ref : Ref) (stored : Option StoredRow) : Projection :=
  rowsOf dateParse ref (stored.bind (inputOf ref))

/-- What the tables hold for an identity. -/
def projected (db : Db) (ref : Ref) : Projection where
  inputs := group InputRow.ref db.inputs ref
  runs := group RunRow.ref db.runs ref
  attempts := group AttemptRow.ref db.attempts ref
  rounds := if ref.collection = .flows then group RoundRow.rowKey db.rounds ref.rowKey else []

/-- The project that the tables have for an identity. -/
def projectOf (db : Db) (ref : Ref) : Option String :=
  (group InputRow.ref db.inputs ref).head?.bind InputRow.project

/-- `history_runs JOIN history_inputs`: the projected runs of a project with a role. -/
def projectedRuns (db : Db) (project role : String) : List RunRow :=
  db.runs.filter fun run => run.role = role && projectOf db run.ref = some project

def tally (db : Db) (key : String × String) : ℕ := (projectedRuns db key.1 key.2).length

/-! ### The rows of a projection -/

theorem inputOf_ref {ref : Ref} {stored : StoredRow} {row : InputRow} (h : inputOf ref stored = some row) :
    row.ref = ref := by
  unfold inputOf at h
  split at h
  · rw [← Option.some.inj h]
  · contradiction
  · rw [← Option.some.inj h]
  · contradiction

theorem runRows_ref (ref : Ref) (input : Input) : ∀ run ∈ runRows ref input, run.ref = ref := by
  intro run hrun
  cases input with
  | pipeline closedAt roles runs =>
    obtain ⟨index, hindex, rfl⟩ := List.mem_mapIdx.mp hrun
    exact rfl
  | flow => exact nomatch hrun

theorem attemptRows_ref (ref : Ref) (input : Input) :
    ∀ attempt ∈ attemptRows dateParse ref input, attempt.ref = ref := by
  intro attempt hattempt
  cases input with
  | pipeline closedAt roles runs =>
    obtain ⟨rows, hrows, hmem⟩ := List.mem_flatten.mp hattempt
    obtain ⟨index, hindex, rfl⟩ := List.mem_mapIdx.mp hrows
    obtain ⟨inner, hinner, rfl⟩ := List.mem_mapIdx.mp hmem
    exact rfl
  | flow => exact nomatch hattempt

theorem roundRows_rowKey (rowKey : String) (input : Input) :
    ∀ round ∈ roundRows rowKey input, round.rowKey = rowKey := by
  intro round hround
  cases input with
  | pipeline => exact nomatch hround
  | flow reviewerMode rounds =>
    simp only [roundRows] at hround
    split at hround
    · obtain ⟨index, hindex, hsome⟩ := List.mem_mapIdx.mp (List.reduceOption_mem_iff.mp hround)
      obtain ⟨pid, -, hpid⟩ := Option.bind_eq_some_iff.mp hsome
      split at hpid
      · rw [← Option.some.inj hpid]
      · contradiction
    · exact nomatch hround

theorem mem_elim {β : Type*} {row : Option InputRow} {f : InputRow → List β} {P : β → Prop}
    (h : ∀ row, ∀ value ∈ f row, P value) : ∀ value ∈ row.elim [] f, P value := by
  intro value hvalue
  cases row with
  | none => exact nomatch hvalue
  | some row => exact h row value hvalue

theorem projected_replaceRows_self (db : Db) {ref : Ref} {row : Option InputRow}
    (hrow : ∀ value, row = some value → value.ref = ref) :
    projected (replaceRows dateParse db ref row) ref = rowsOf dateParse ref row := by
  unfold projected replaceRows rowsOf
  congr 1
  · exact group_regroup_self fun value hvalue => hrow value (Option.mem_toList.mp hvalue)
  · exact group_regroup_self (mem_elim fun row => runRows_ref ref row.input)
  · exact group_regroup_self (mem_elim fun row => attemptRows_ref dateParse ref row.input)
  · by_cases hflows : ref.collection = .flows
    · rw [if_pos hflows, if_pos hflows, if_pos hflows]
      exact group_regroup_self (mem_elim fun row => roundRows_rowKey ref.rowKey row.input)
    · rw [if_neg hflows, if_neg hflows]

theorem projected_replaceRows_of_ne (db : Db) {ref other : Ref} {row : Option InputRow}
    (hrow : ∀ value, row = some value → value.ref = ref) (hne : other ≠ ref) :
    projected (replaceRows dateParse db ref row) other = projected db other := by
  unfold projected replaceRows
  congr 1
  · exact group_regroup_of_ne (fun value hvalue => hrow value (Option.mem_toList.mp hvalue)) hne
  · exact group_regroup_of_ne (mem_elim fun row => runRows_ref ref row.input) hne
  · exact group_regroup_of_ne (mem_elim fun row => attemptRows_ref dateParse ref row.input) hne
  · by_cases hother : other.collection = .flows
    · rw [if_pos hother, if_pos hother]
      split
      · next hflows =>
        have hkey : other.rowKey ≠ ref.rowKey := by
          intro hsame
          apply hne
          cases other
          cases ref
          simp_all
        exact group_regroup_of_ne (mem_elim fun row => roundRows_rowKey ref.rowKey row.input) hkey
      · rfl
    · rw [if_neg hother, if_neg hother]

/-! ### The counters -/

/-- The roles of the runs that the tables hold for an identity. -/
def rolesOf (db : Db) (ref : Ref) : List String := (group RunRow.ref db.runs ref).map RunRow.role

theorem tally_eq_countP (db : Db) (project role : String) :
    tally db (project, role) =
      db.runs.countP fun run => run.role = role && projectOf db run.ref = some project :=
  (List.countP_eq_length_filter ..).symm

/-- What one identity adds to a count. -/
def share (project : Option String) (roles : List String) (key : String × String) : ℕ :=
  if project = some key.1 then roles.count key.2 else 0

/-- Rows of one identity share its project. -/
theorem countP_share {rows : List RunRow} {ref : Ref} (projectOf : Ref → Option String)
    (h : ∀ run ∈ rows, run.ref = ref) (project role : String) :
    rows.countP (fun run => run.role = role && projectOf run.ref = some project) =
      share (projectOf ref) (rows.map RunRow.role) (project, role) := by
  unfold share
  split
  · next hproject =>
    rw [List.count, List.countP_map]
    apply List.countP_congr
    intro run hrun
    simp [h run hrun, hproject]
  · next hproject =>
    rw [List.countP_eq_zero]
    intro run hrun
    simp [h run hrun, hproject]

theorem projectOf_replaceRows (db : Db) {ref : Ref} {row : Option InputRow}
    (hrow : ∀ value, row = some value → value.ref = ref) (other : Ref) :
    projectOf (replaceRows dateParse db ref row) other =
      if other = ref then row.bind InputRow.project else projectOf db other := by
  have hmem : ∀ value ∈ row.toList, value.ref = ref :=
    fun value hvalue => hrow value (Option.mem_toList.mp hvalue)
  have hinputs : (replaceRows dateParse db ref row).inputs = regroup InputRow.ref db.inputs ref row.toList :=
    rfl
  unfold projectOf
  rw [hinputs]
  by_cases hsame : other = ref
  · rw [if_pos hsame, hsame, group_regroup_self hmem]
    cases row <;> rfl
  · rw [if_neg hsame, group_regroup_of_ne hmem hsame]

/-- **What the replaced rows do to the counts**: the old share goes, the new one comes. -/
theorem tally_replaceRows (db : Db) {ref : Ref} {row : Option InputRow}
    (hrow : ∀ value, row = some value → value.ref = ref) (key : String × String) :
    tally (replaceRows dateParse db ref row) key + share (projectOf db ref) (rolesOf db ref) key =
      tally db key + share (row.bind InputRow.project)
        ((rowsOf dateParse ref row).runs.map RunRow.role) key := by
  obtain ⟨project, role⟩ := key
  have hnew : ∀ run ∈ (rowsOf dateParse ref row).runs, run.ref = ref :=
    mem_elim fun row => runRows_ref ref row.input
  have hold : ∀ run ∈ group RunRow.ref db.runs ref, run.ref = ref :=
    fun run hrun => (mem_group.mp hrun).2
  have hproject := projectOf_replaceRows dateParse db hrow
  -- The other rows keep their projects.
  have hkept : (db.runs.filter fun run => run.ref ≠ ref).countP
        (fun run => run.role = role && projectOf (replaceRows dateParse db ref row) run.ref = some project) =
      (db.runs.filter fun run => run.ref ≠ ref).countP
        (fun run => run.role = role && projectOf db run.ref = some project) := by
    apply List.countP_congr
    intro run hrun
    have hne : run.ref ≠ ref := by simpa using (List.mem_filter.mp hrun).2
    rw [hproject, if_neg hne]
  have hregroup := countP_regroup RunRow.ref
    (fun run => run.role = role && projectOf db run.ref = some project) db.runs [] ref
  have hshare := countP_share (projectOf db) hold project role
  have hnewShare := countP_share (projectOf (replaceRows dateParse db ref row)) hnew project role
  rw [hproject, if_pos rfl] at hnewShare
  rw [tally_eq_countP, tally_eq_countP]
  have hruns : (replaceRows dateParse db ref row).runs =
      (db.runs.filter fun run => run.ref ≠ ref) ++ (rowsOf dateParse ref row).runs := rfl
  rw [hruns, List.countP_append, hkept, hnewShare, rolesOf, ← hshare]
  rw [regroup, List.append_nil] at hregroup
  simp only [List.countP_nil, Nat.add_zero] at hregroup
  omega

theorem share_le_tally (db : Db) (ref : Ref) (key : String × String) :
    share (projectOf db ref) (rolesOf db ref) key ≤ tally db key := by
  obtain ⟨project, role⟩ := key
  have hold : ∀ run ∈ group RunRow.ref db.runs ref, run.ref = ref :=
    fun run hrun => (mem_group.mp hrun).2
  rw [rolesOf, ← countP_share (projectOf db) hold project role, tally_eq_countP]
  exact List.filter_sublist.countP_le

/-- The counters follow when the roles of a project change. -/
theorem Tallied.countRun {counts : Entries (String × String) Int} {n m : String × String → ℕ}
    {project : Option String} {roles : List String} (amount : Int) (h : Tallied counts n)
    (hm : ∀ key, (m key : Int) = n key + amount * share project roles key) :
    Tallied (History.countRun counts project roles amount) m := by
  unfold History.countRun
  cases project with
  | none =>
    have hsame : m = n := by
      funext key
      have hkey := hm key
      simp only [share, reduceCtorEq, if_false] at hkey
      omega
    simp only [hsame]
    exact h
  | some project =>
    have hinjective : Function.Injective fun role : String => (project, role) :=
      fun a b heq => (Prod.mk.inj heq).2
    refine Tallied.addAll hinjective (deltas roles amount).nodup h ?_ ?_
    · intro role d hmem
      obtain ⟨-, rfl⟩ := mem_deltas.mp hmem
      rw [hm (project, role), share, if_pos rfl]
    · rintro ⟨other, role⟩ hout
      have hkey := hm (other, role)
      by_cases hproject : other = project
      · subst hproject
        have hnot : role ∉ roles := fun hmem => hout role _ (mem_deltas.mpr ⟨hmem, rfl⟩) rfl
        simp only [share, if_pos, List.count_eq_zero_of_not_mem hnot] at hkey
        omega
      · have hne : some project ≠ some other := fun heq => hproject (Option.some.inj heq).symm
        simp only [share, if_neg hne] at hkey
        omega

/-! ### One projection -/

/-- Both signatures have the roles of the run rows. -/
theorem countSignatureFromInput_roles (ref : Ref) (input : Input) :
    (countSignatureFromInput input).roles = (runRows ref input).map RunRow.role := by
  cases input with
  | pipeline closedAt roles runs =>
    simp only [countSignatureFromInput, runRows]
    apply List.ext_getElem
    · simp
    · intro index hleft hright
      simp
  | flow => rfl

theorem rowsOf_roles (ref : Ref) (row : Option InputRow) :
    (rowsOf dateParse ref row).runs.map RunRow.role =
      row.elim [] fun row => (countSignatureFromInput row.input).roles := by
  cases row with
  | none => rfl
  | some row => exact (countSignatureFromInput_roles ref row.input).symm

/-- A flow has no runs. -/
theorem projection_runs_of_flows {ref : Ref} (h : ref.collection = .flows) (stored : Option StoredRow) :
    (projection dateParse ref stored).runs = [] := by
  unfold projection rowsOf
  cases hrow : stored.bind (inputOf ref) with
  | none => rfl
  | some row =>
    obtain ⟨value, -, hinput⟩ := Option.bind_eq_some_iff.mp hrow
    simp only [inputOf, h] at hinput
    split at hinput
    · rw [← Option.some.inj hinput]
      rfl
    · contradiction
    · contradiction
    · contradiction

/-- What a projection leaves: the identity has the projection of its stored row, no other identity
is touched, and the counters follow. -/
structure Projects (db next : Db) (ref : Ref) : Prop where
  stateRows : next.stateRows = db.stateRows
  pending : next.pending = db.pending
  self : projected next ref = projection dateParse ref (db.stateRows.at? ref)
  other : ∀ other, other ≠ ref → projected next other = projected db other
  counts : Tallied db.countRoles (tally db) → Tallied next.countRoles (tally next)

/-- The counters after the shares were taken out and put in. -/
theorem Tallied.moved {db next : Db} {ref : Ref} {row : Option InputRow}
    (hrow : ∀ value, row = some value → value.ref = ref) (h : Tallied db.countRoles (tally db))
    (hnext : tally next = tally (replaceRows dateParse db ref row)) :
    Tallied (History.countRun (History.countRun db.countRoles (projectOf db ref) (rolesOf db ref) (-1))
      (row.bind InputRow.project) ((rowsOf dateParse ref row).runs.map RunRow.role) 1) (tally next) := by
  have hout : Tallied (History.countRun db.countRoles (projectOf db ref) (rolesOf db ref) (-1))
      fun key => tally db key - share (projectOf db ref) (rolesOf db ref) key := by
    refine Tallied.countRun (-1) h fun key => ?_
    have hle := share_le_tally db ref key
    omega
  refine Tallied.countRun 1 hout fun key => ?_
  have hle := share_le_tally db ref key
  have hmoved := tally_replaceRows dateParse db hrow key
  rw [hnext]
  omega

theorem share_nil (project : Option String) (key : String × String) : share project [] key = 0 := by
  unfold share
  split <;> rfl

/-- A replacement that keeps the project and the roles keeps the counts. -/
theorem tally_replaceRows_same (db : Db) {ref : Ref} {row : Option InputRow}
    (hrow : ∀ value, row = some value → value.ref = ref)
    (hshare : ∀ key, share (row.bind InputRow.project) ((rowsOf dateParse ref row).runs.map RunRow.role) key =
      share (projectOf db ref) (rolesOf db ref) key) :
    tally (replaceRows dateParse db ref row) = tally db := by
  funext key
  have hmoved := tally_replaceRows dateParse db hrow key
  have hkey := hshare key
  omega

theorem projectOne_projects {db : Db} {ref : Ref} {stored : Option StoredRow}
    (h : projected db ref = projection dateParse ref stored) :
    Projects dateParse db (projectOne dateParse db ref).1 ref := by
  have hbefore : (group InputRow.ref db.inputs ref).head? = stored.bind (inputOf ref) := by
    have hinputs : group InputRow.ref db.inputs ref = (stored.bind (inputOf ref)).toList :=
      congrArg Projection.inputs h
    rw [hinputs]
    cases stored.bind (inputOf ref) <;> rfl
  have hrow : ∀ value, (db.stateRows.at? ref).bind (inputOf ref) = some value → value.ref = ref := by
    intro value hvalue
    obtain ⟨current, -, hinput⟩ := Option.bind_eq_some_iff.mp hvalue
    exact inputOf_ref hinput
  unfold projectOne
  dsimp only
  split
  · next hsame =>
    -- The compact input is the same, so the rest of the projection is.
    refine ⟨rfl, rfl, ?_, fun _ _ => rfl, id⟩
    simp only [Bool.and_eq_true, decide_eq_true_eq] at hsame
    rw [h, projection, projection, ← hsame.2, hbefore]
  · refine ⟨rfl, rfl, projected_replaceRows_self dateParse db hrow,
      fun other hne => projected_replaceRows_of_ne dateParse db hrow hne, fun hcounts => ?_⟩
    have hnew := rowsOf_roles dateParse ref ((db.stateRows.at? ref).bind (inputOf ref))
    by_cases hflows : ref.collection = .flows
    · have hold : rolesOf db ref = [] := by
        have hruns : group RunRow.ref db.runs ref = [] :=
          (congrArg Projection.runs h).trans (projection_runs_of_flows dateParse hflows stored)
        rw [rolesOf, hruns, List.map_nil]
      have hnone : (rowsOf dateParse ref ((db.stateRows.at? ref).bind (inputOf ref))).runs = [] :=
        projection_runs_of_flows dateParse hflows (db.stateRows.at? ref)
      have hsame := tally_replaceRows_same dateParse db hrow fun key => by
        rw [hold, hnone, List.map_nil, share_nil, share_nil]
      simp only [hflows, ne_eq, not_true_eq_false, decide_false, Bool.false_and, Bool.false_eq_true, if_false]
      exact hsame ▸ hcounts
    · simp only [hflows, if_false, ne_eq, not_false_eq_true, decide_true, Bool.true_and]
      split
      · have hmoved := Tallied.moved dateParse hrow hcounts rfl
        have helim : (((db.stateRows.at? ref).bind (inputOf ref)).map fun row =>
              countSignatureFromInput row.input).elim [] CountSignature.roles =
            (rowsOf dateParse ref ((db.stateRows.at? ref).bind (inputOf ref))).runs.map RunRow.role := by
          rw [hnew]
          cases (db.stateRows.at? ref).bind (inputOf ref) <;> rfl
        rw [helim]
        exact hmoved
      · next hunchanged =>
        simp only [Bool.or_eq_true, decide_eq_true_eq, not_or, not_not] at hunchanged
        obtain ⟨hproject, hsignature⟩ := hunchanged
        have hroles : (rowsOf dateParse ref ((db.stateRows.at? ref).bind (inputOf ref))).runs.map RunRow.role =
            rolesOf db ref := by
          obtain ⟨row, hsome, hsame⟩ := Option.map_eq_some_iff.mp hsignature.symm
          rw [hnew, hsome]
          exact congrArg CountSignature.roles hsame
        have hsame := tally_replaceRows_same dateParse db hrow fun key => by
          rw [hroles, ← hproject]
          rfl
        exact hsame ▸ hcounts

/-! ### Every run -/

/-- Each identity has the projection of a stored row, the current one unless it is queued, and the
counters count the projected runs. -/
structure Refines (db : Db) : Prop where
  source : ∀ ref, ∃ stored, projected db ref = projection dateParse ref stored ∧
    (tracked ref = true → ref ∉ db.pending → stored = db.stateRows.at? ref)
  counts : Tallied db.countRoles (tally db)

theorem mem_enqueue {db : Db} {ref other : Ref} :
    other ∈ (enqueue db ref).pending ↔ other ∈ db.pending ∨ (other = ref ∧ tracked ref = true) := by
  unfold enqueue
  split
  · next hnew =>
    simp only [Bool.and_eq_true] at hnew
    simp [hnew.1]
  · next hold =>
    constructor
    · exact Or.inl
    · rintro (hmem | ⟨rfl, htracked⟩)
      · exact hmem
      · simpa [htracked] using hold

theorem enqueue_eq (db : Db) (ref : Ref) :
    enqueue db ref = { db with pending := (enqueue db ref).pending } := by
  unfold enqueue
  split <;> rfl

/-- A write keeps the refinement if it queues each tracked identity whose row it changes. -/
theorem Refines.write {db : Db} (h : Refines dateParse db) {rows : Entries Ref StoredRow} {pending : List Ref}
    (hpending : ∀ ref ∈ db.pending, ref ∈ pending)
    (hchanged : ∀ ref, tracked ref = true → ref ∉ pending → rows.at? ref = db.stateRows.at? ref) :
    Refines dateParse { db with stateRows := rows, pending := pending } where
  source ref := by
    obtain ⟨stored, hprojected, hcurrent⟩ := h.source ref
    refine ⟨stored, hprojected, fun htracked hfree => ?_⟩
    rw [hcurrent htracked fun hmem => hfree (hpending ref hmem)]
    exact (hchanged ref htracked hfree).symm
  counts := h.counts

theorem Refines.project {db : Db} (h : Refines dateParse db) (ref : Ref) :
    Refines dateParse { (projectOne dateParse db ref).1 with
      pending := (projectOne dateParse db ref).1.pending.filter (· ≠ ref) } where
  source other := by
    obtain ⟨stored, hprojected, -⟩ := h.source ref
    have hprojects := projectOne_projects dateParse hprojected
    by_cases hsame : other = ref
    · refine ⟨db.stateRows.at? other, ?_, fun _ _ => ?_⟩
      · rw [hsame]
        exact hprojects.self
      · exact (congrArg (Entries.at? · other) hprojects.stateRows).symm
    · obtain ⟨earlier, hearlier, hcurrent⟩ := h.source other
      refine ⟨earlier, (hprojects.other other hsame).trans hearlier, fun htracked hfree => ?_⟩
      have hnot : other ∉ db.pending := by
        intro hmem
        apply hfree
        rw [hprojects.pending]
        exact List.mem_filter.mpr ⟨hmem, by simpa using hsame⟩
      rw [hcurrent htracked hnot]
      exact (congrArg (Entries.at? · other) hprojects.stateRows).symm
  counts := by
    obtain ⟨stored, hprojected, -⟩ := h.source ref
    exact (projectOne_projects dateParse hprojected).counts h.counts

variable {ρ : Type*} [DecidableEq ρ]

omit [DecidableEq ρ] in
theorem refines_initial (stateRows : Entries Ref StoredRow) :
    Refines dateParse (initial stateRows : State ρ).db where
  source ref := by
    refine ⟨none, ?_, fun htracked hfree => ?_⟩
    · unfold projected projection rowsOf
      by_cases hflows : ref.collection = .flows
      · simp [initial, installHistoryProjection, group]
      · simp [initial, installHistoryProjection, group, hflows]
    · cases hat : stateRows.at? ref with
      | none => exact hat.symm
      | some row =>
        refine absurd (List.mem_filter.mpr ⟨?_, htracked⟩) hfree
        exact Entries.mem_keys.mpr ⟨row, hat⟩
  counts := by
    have hnone : tally (initial stateRows : State ρ).db = fun _ => 0 := by
      funext key
      rfl
    rw [hnone]
    exact tallied_empty

/-- A write whose triggers queue the identities of `changed`. -/
theorem Refines.enqueued {db : Db} (h : Refines dateParse db) {rows : Entries Ref StoredRow}
    (changed : List Ref) (hrows : ∀ ref, ref ∉ changed → rows.at? ref = db.stateRows.at? ref) :
    Refines dateParse (changed.foldl enqueue { db with stateRows := rows }) := by
  have hfold : ∀ (refs : List Ref) (db : Db), refs.foldl enqueue db =
      { db with pending := (refs.foldl enqueue db).pending } ∧
      ∀ other, other ∈ (refs.foldl enqueue db).pending ↔
        other ∈ db.pending ∨ (other ∈ refs ∧ tracked other = true) := by
    intro refs
    induction refs with
    | nil => exact fun db => ⟨rfl, fun other => by simp⟩
    | cons ref rest ih =>
      intro db
      obtain ⟨heq, hmem⟩ := ih (enqueue db ref)
      refine ⟨?_, fun other => ?_⟩
      · rw [List.foldl_cons, heq, enqueue_eq]
      · rw [List.foldl_cons, hmem, mem_enqueue, List.mem_cons]
        constructor
        · rintro ((hold | ⟨rfl, htracked⟩) | ⟨hrest, htracked⟩)
          · exact Or.inl hold
          · exact Or.inr ⟨Or.inl rfl, htracked⟩
          · exact Or.inr ⟨Or.inr hrest, htracked⟩
        · rintro (hold | ⟨rfl | hrest, htracked⟩)
          · exact Or.inl (Or.inl hold)
          · exact Or.inl (Or.inr ⟨rfl, htracked⟩)
          · exact Or.inr ⟨hrest, htracked⟩
  obtain ⟨heq, hmem⟩ := hfold changed { db with stateRows := rows }
  rw [heq]
  refine h.write dateParse (fun ref hpending => (hmem ref).mpr (Or.inl hpending)) fun ref htracked hfree => ?_
  exact hrows ref fun hin => hfree ((hmem ref).mpr (Or.inr ⟨hin, htracked⟩))

theorem Refines.step {s : State ρ} (h : Refines dateParse s.db) (event : Event ρ) :
    Refines dateParse (step dateParse s event).1.db := by
  cases event with
  | insert ref row =>
    simp only [History.step]
    split
    · exact h
    · refine h.enqueued dateParse [ref] fun other hother => ?_
      rw [Entries.at?_set, if_neg (by simpa using hother)]
  | update old new row =>
    simp only [History.step]
    split
    · exact h
    · refine h.enqueued dateParse [old, new] fun other hother => ?_
      simp only [List.mem_cons, List.not_mem_nil, or_false, not_or] at hother
      rw [Entries.at?_set, if_neg hother.2, Entries.at?_delete, if_neg hother.1]
  | delete ref =>
    simp only [History.step]
    split
    · refine h.enqueued dateParse [ref] fun other hother => ?_
      rw [Entries.at?_delete, if_neg (by simpa using hother)]
    · exact h
  | capture reader batch =>
    simp only [History.step]
    split
    · exact h
    · exact h
  | project reader =>
    simp only [History.step]
    split
    · exact h
    · next ref rest _ =>
      split
      · exact h.project dateParse ref
      · exact h

/-- **The history tables refine the stored rows**, in every state that writers and readers reach. -/
theorem history_refines (stateRows : Entries Ref StoredRow) (events : List (Event ρ)) :
    let db := (after (History.step dateParse) (initial stateRows) events).db
    (∀ ref, tracked ref = true → ref ∉ db.pending →
      projected db ref = projection dateParse ref (db.stateRows.at? ref)) ∧
    ∀ project role, db.countRoles.at? (project, role) =
      if (projectedRuns db project role).length = 0 then none
      else some ((projectedRuns db project role).length : Int) := by
  intro db
  have hrefines : Refines dateParse db :=
    after_invariant (P := fun s : State ρ => Refines dateParse s.db)
      (fun s event hs => hs.step dateParse event) (refines_initial dateParse stateRows) events
  refine ⟨fun ref htracked hfree => ?_, fun project role => hrefines.counts (project, role)⟩
  obtain ⟨stored, hprojected, hcurrent⟩ := hrefines.source ref
  rw [hprojected, hcurrent htracked hfree]

/-- A pipeline of one run that moves to another project takes its count along. -/
example :
    let moved (project : String) : StoredRow :=
      ⟨0, .pipeline ⟨project, "running", none, [⟨"fix", some "builder"⟩], [⟨"fix", []⟩]⟩⟩
    let ref : Ref := ⟨.pipelines, "p1"⟩
    let db := (after (History.step fun _ => none) (initial Table.empty : State ℕ)
      [.insert ref (moved "a"), .capture 0 [ref], .project 0,
        .update ref ref (moved "b"), .capture 1 [ref], .project 1]).db
    db.countRoles.rows = [(("b", "builder"), 1)] := by
  decide

end Delegatus.History
