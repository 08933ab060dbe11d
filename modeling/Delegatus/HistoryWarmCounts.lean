import Delegatus.HistoryCountAnswers

/-!
# Warm attempt counts equal a recount

`Held` is the invariant of a cached answer: it answers for what its projects counted when it was
stamped, and a revision that is still the current one says that the project counts the same now.  A
project without a revision counts nothing, then and now.

`warm_counts_eq_recount` follows: an answer from the cache is that of the full query.
-/

namespace Delegatus.History

open RowGroups SlidingWindows Runs

/-! ### Aliased projects -/

/-- The alias of a name; an empty one is none. -/
def aliasOf (aliases : Aliases) (name : String) : Option String := (aliases.at? name).filter (· ≠ "")

theorem canonicalProject_eq (aliases : Aliases) (project : String) :
    canonicalProject aliases project =
      if (AliasChains.walk (aliasOf aliases) (aliases.keys.length + 1) [] project).2 then project
      else (AliasChains.walk (aliasOf aliases) (aliases.keys.length + 1) [] project).1 := by
  unfold canonicalProject aliasOf
  dsimp only
  obtain ⟨name, turned⟩ := AliasChains.walk (fun name => (aliases.at? name).filter (· ≠ ""))
    (aliases.keys.length + 1) [] project
  cases turned <;> rfl

theorem canonicalProject_of_end {aliases : Aliases} {project : String} (h : aliasOf aliases project = none) :
    canonicalProject aliases project = project := by
  have hwalk : AliasChains.walk (aliasOf aliases) (aliases.keys.length + 1) [] project = (project, false) := by
    rw [AliasChains.walk, h]
  rw [canonicalProject_eq, hwalk]
  exact if_neg Bool.false_ne_true

theorem canonicalProject_idem (aliases : Aliases) (project : String) :
    canonicalProject aliases (canonicalProject aliases project) = canonicalProject aliases project := by
  have hcases := canonicalProject_eq aliases project
  cases hturned : (AliasChains.walk (aliasOf aliases) (aliases.keys.length + 1) [] project).2 with
  | true =>
    rw [hturned, if_pos rfl] at hcases
    rw [hcases, hcases]
  | false =>
    rw [hturned, if_neg Bool.false_ne_true] at hcases
    have hend := AliasChains.walk_ends (Prod.ext rfl hturned :
      AliasChains.walk (aliasOf aliases) (aliases.keys.length + 1) [] project = (_, false))
    rw [hcases]
    exact canonicalProject_of_end hend.2

theorem mem_aliasedProjects {aliases : Aliases} {project other : String} :
    other ∈ aliasedProjects aliases project ↔
      canonicalProject aliases other = canonicalProject aliases project := by
  unfold aliasedProjects JsStrings.sort
  dsimp only
  rw [List.mem_mergeSort, List.mem_cons, List.mem_filter, Bool.and_eq_true, decide_eq_true_eq, decide_eq_true_eq]
  constructor
  · rintro (hsame | ⟨-, hcanonical, -⟩)
    · rw [hsame]
      exact canonicalProject_idem aliases project
    · exact hcanonical
  · intro hcanonical
    by_cases hsame : other = canonicalProject aliases project
    · exact Or.inl hsame
    · refine Or.inr ⟨?_, hcanonical, hsame⟩
      by_contra hkey
      have hnone : aliases.at? other = none := by
        cases hat : aliases.at? other with
        | none => rfl
        | some value => exact absurd (Entries.mem_keys.mpr ⟨value, hat⟩) hkey
      have hend : aliasOf aliases other = none := by
        rw [aliasOf, hnone]
        rfl
      exact hsame ((canonicalProject_of_end hend).symm.trans hcanonical)

theorem nodup_aliasedProjects (aliases : Aliases) (project : String) : (aliasedProjects aliases project).Nodup := by
  unfold aliasedProjects JsStrings.sort
  dsimp only
  rw [(List.mergeSort_perm _ _).nodup_iff, List.nodup_cons]
  constructor
  · intro hmem
    rw [List.mem_filter, Bool.and_eq_true, decide_eq_true_eq, decide_eq_true_eq] at hmem
    exact hmem.2.2 rfl
  · exact List.Nodup.filter _ aliases.nodup

/-- The owner test of the patch is membership in the aliased projects. -/
theorem owns_iff {aliases : Aliases} {cachedProject : String} {project : Option String} :
    owns aliases cachedProject project = true ↔
      ∃ name, project = some name ∧ name ∈ aliasedProjects aliases cachedProject := by
  unfold owns
  cases project with
  | none => simp
  | some name =>
    rw [Option.any_some, decide_eq_true_eq]
    constructor
    · exact fun hsame => ⟨name, rfl, mem_aliasedProjects.mpr hsame⟩
    · rintro ⟨other, hother, hmem⟩
      obtain rfl := Option.some.inj hother
      exact mem_aliasedProjects.mp hmem

/-! ### Named roles -/

/-- The validator accepts only the names of the known roles. -/
def RolesNamed : Value → Prop
  | .pipeline pipeline =>
    (∀ stage ∈ pipeline.stages, stage.role ≠ some "") ∧
      ∀ run ∈ pipeline.runs, ∀ attempt ∈ run.attempts, attempt.role ≠ some ""
  | _ => True

def RowsNamed (rows : Entries Ref StoredRow) : Prop := ∀ row ∈ rows.rows, RolesNamed row.2.value

/-- No role of a signature is empty. -/
def SignatureNamed (signature : CountSignature) : Prop := ∀ attempt ∈ signature.attempts, attempt.1 ≠ ""

variable (dateParse : String → Option Int)

theorem roleOf_ne {roles : List Stage} (h : ∀ stage ∈ roles, stage.role ≠ some "") (stageId : String) :
    roleOf roles stageId ≠ "" := by
  unfold roleOf
  cases hfind : roles.find? fun item => item.id = stageId with
  | none => decide
  | some stage =>
    have hstage := h stage (List.mem_of_find?_eq_some hfind)
    cases hrole : stage.role with
    | none =>
      rw [Option.bind_some, hrole]
      decide
    | some role =>
      rw [Option.bind_some, hrole]
      intro hempty
      rw [hrole] at hstage
      exact hstage (congrArg some hempty)

theorem signatureNamed_of_row {ref : Ref} {stored : StoredRow} {row : InputRow} (h : RolesNamed stored.value)
    (hrow : inputOf ref stored = some row) : SignatureNamed (countSignatureFromInput row.input) := by
  have hpipeline : ∀ closedAt roles runs, row.input = .pipeline closedAt roles runs →
      (∀ stage ∈ roles, stage.role ≠ some "") ∧ ∀ run ∈ runs, ∀ attempt ∈ run.attempts, attempt.role ≠ some "" := by
    intro closedAt roles runs hinput
    unfold inputOf at hrow
    split at hrow
    · obtain rfl := Option.some.inj hrow
      cases hinput
    · contradiction
    · next pipeline hvalue hcollection =>
      rw [hvalue] at h
      obtain rfl := Option.some.inj hrow
      cases hinput
      exact h
    · contradiction
  intro attempt hattempt
  cases hinput : row.input with
  | flow reviewerMode rounds =>
    rw [hinput] at hattempt
    exact nomatch hattempt
  | pipeline closedAt roles runs =>
    obtain ⟨hstages, hattempts⟩ := hpipeline closedAt roles runs hinput
    rw [hinput] at hattempt
    obtain ⟨run, hrun, hmem⟩ := List.mem_flatMap.mp hattempt
    obtain ⟨value, hvalue, rfl⟩ := List.mem_map.mp hmem
    have hnamed := hattempts run hrun value hvalue
    cases hrole : value.role with
    | none => exact roleOf_ne hstages run.stageId
    | some role =>
      intro hempty
      rw [hrole] at hnamed
      exact hnamed (congrArg some hempty)

/-- The share of a project in a signature of named roles. -/
theorem datedShare_eq {owner : Option String} {signature : CountSignature} (h : SignatureNamed signature)
    (project : String) : datedShare dateParse owner signature project =
      if owner = some project then (dated dateParse signature.attempts : Multiset (String × Int)) else 0 := by
  unfold datedShare signatureEntries
  cases owner with
  | none => rfl
  | some owner =>
    have hentries : (dated dateParse signature.attempts) = signature.attempts.filterMap fun attempt =>
        (dateParse (attempt.2.getD "")).map fun time => (attempt.1, time) := by
      unfold dated
      apply List.filterMap_congr
      intro attempt hattempt
      rw [if_neg (h attempt hattempt)]
    dsimp only
    rw [hentries]
    unfold entriesOf
    rw [List.filter_filterMap, List.map_filterMap]
    by_cases hsame : owner = project
    · rw [if_pos (congrArg some hsame)]
      congr 1
      apply List.filterMap_congr
      intro attempt _
      cases dateParse (attempt.2.getD "") with
      | none => rfl
      | some time => simp [hsame]
    · rw [if_neg fun heq => hsame (Option.some.inj heq)]
      have hnone : signature.attempts.filterMap (fun attempt =>
          (((dateParse (attempt.2.getD "")).map fun time => (owner, attempt.1, time)).filter
            fun entry => decide (entry.1 = project)).map Prod.snd) = [] := by
        rw [List.filterMap_eq_nil_iff]
        intro attempt _
        cases dateParse (attempt.2.getD "") with
        | none => rfl
        | some time => simp [hsame]
      rw [hnone]
      rfl

/-! ### The database -/

/-- What holds of the tables whenever a reader looks at them. -/
structure Counted (db : Db) : Prop where
  refines : Refines dateParse db
  revised : Revised db
  times : TimesParsed dateParse db
  rows : RowsNamed db.stateRows
  signatures : ∀ ref, SignatureNamed (countSignature db ref)

/-- A project without a revision counts nothing. -/
theorem Counted.absent {db : Db} (h : Counted dateParse db) {q : String}
    (hnone : db.revisions.countProjects.at? q = none) : datedOf db q = 0 ∧ ∀ role, tally db (q, role) = 0 := by
  have hno := h.revised.absent q hnone
  constructor
  · have hempty : ((joined db).filter fun entry => entry.1 = q) = [] := by
      rw [List.filter_eq_nil_iff]
      rintro ⟨project, role, time⟩ hentry hsame
      obtain rfl : project = q := by simpa using hsame
      obtain ⟨attempt, -, hjoined⟩ := List.mem_filterMap.mp hentry
      unfold joinedAttempt at hjoined
      split at hjoined
      · contradiction
      · next hflows =>
        obtain ⟨input, hinput, hrest⟩ := Option.bind_eq_some_iff.mp hjoined
        obtain ⟨owner, howner, hrun⟩ := Option.bind_eq_some_iff.mp hrest
        obtain ⟨run, -, htime⟩ := Option.bind_eq_some_iff.mp hrun
        obtain ⟨at_, -, heq⟩ := Option.map_eq_some_iff.mp htime
        obtain rfl : owner = project := congrArg Prod.fst heq
        rw [isPipelineInput_of_project hflows (Option.bind_eq_some_iff.mpr ⟨input, hinput, howner⟩)] at hno
        contradiction
    unfold datedOf entriesOf
    rw [hempty]
    rfl
  · intro role
    unfold tally projectedRuns
    rw [List.length_eq_zero_iff, List.filter_eq_nil_iff]
    intro run hrun hmatch
    rw [Bool.and_eq_true, decide_eq_true_eq, decide_eq_true_eq] at hmatch
    by_cases hflows : run.ref.collection = .flows
    · obtain ⟨stored, hprojected, -⟩ := h.refines.source run.ref
      have hruns : group RunRow.ref db.runs run.ref = [] :=
        (congrArg Projection.runs hprojected).trans (projection_runs_of_flows dateParse hflows stored)
      exact List.not_mem_nil (hruns ▸ mem_group.mpr ⟨hrun, rfl⟩)
    · rw [isPipelineInput_of_project hflows hmatch.2] at hno
      contradiction

theorem projectOne_update {db : Db} {ref : Ref} {change : CountUpdate}
    (h : (projectOne dateParse db ref).2 = some change) : change.oldSignature = countSignature db ref ∧
      change.newSignature = (((db.stateRows.at? ref).bind (inputOf ref)).map fun row =>
        countSignatureFromInput row.input).getD ⟨[], []⟩ := by
  unfold projectOne at h
  dsimp only at h
  split at h
  · contradiction
  by_cases hflows : ref.collection = .flows
  · simp [hflows] at h
  · simp only [hflows, if_false] at h
    split at h
    · obtain rfl := Option.some.inj h
      exact ⟨rfl, rfl⟩
    · contradiction

theorem signatureNamed_empty : SignatureNamed ⟨[], []⟩ := fun _ h => nomatch h

theorem Counted.named_row {db : Db} (h : Counted dateParse db) (ref : Ref) :
    SignatureNamed ((((db.stateRows.at? ref).bind (inputOf ref)).map fun row =>
      countSignatureFromInput row.input).getD ⟨[], []⟩) := by
  cases hrow : (db.stateRows.at? ref).bind (inputOf ref) with
  | none => exact signatureNamed_empty
  | some row =>
    obtain ⟨stored, hstored, hinput⟩ := Option.bind_eq_some_iff.mp hrow
    exact signatureNamed_of_row (h.rows _ (Entries.at?_eq_some.mp hstored)) hinput

theorem countSignature_congr {db next : Db} {ref : Ref} (h : projected next ref = projected db ref) :
    countSignature next ref = countSignature db ref := by
  have hruns : group RunRow.ref next.runs ref = group RunRow.ref db.runs ref := congrArg Projection.runs h
  have hattempts : group AttemptRow.ref next.attempts ref = group AttemptRow.ref db.attempts ref :=
    congrArg Projection.attempts h
  unfold countSignature
  rw [hruns, hattempts]

theorem Counted.project {db : Db} (h : Counted dateParse db) (ref : Ref) :
    Counted dateParse { (projectOne dateParse db ref).1 with
      pending := (projectOne dateParse db ref).1.pending.filter (· ≠ ref) } := by
  obtain ⟨stored, hprojected, -⟩ := h.refines.source ref
  have hprojects := projectOne_projects dateParse hprojected
  have hstep := projectOne_counts dateParse h.refines h.revised h.times ref
  refine ⟨h.refines.project dateParse ref, ⟨hstep.revised.bounded, hstep.revised.absent⟩, hstep.timesParsed, ?_,
    fun other => ?_⟩
  · show RowsNamed (projectOne dateParse db ref).1.stateRows
    rw [hprojects.stateRows]
    exact h.rows
  · show SignatureNamed (countSignature (projectOne dateParse db ref).1 other)
    by_cases hother : other = ref
    · subst hother
      have hrow : projected (projectOne dateParse db other).1 other =
          rowsOf dateParse other ((db.stateRows.at? other).bind (inputOf other)) := hprojects.self
      rw [countSignature_of_tables dateParse hrow]
      have hnamed := h.named_row dateParse other
      cases hcase : (db.stateRows.at? other).bind (inputOf other) with
      | none => exact signatureNamed_empty
      | some row =>
        rw [hcase] at hnamed
        exact hnamed
    · rw [countSignature_congr (hprojects.other other hother)]
      exact h.signatures other

/-- The rows that an event writes have named roles. -/
def EventNamed {ρ : Type*} : Event ρ → Prop
  | .insert _ row | .update _ _ row => RolesNamed row.value
  | _ => True

variable {ρ : Type*} [DecidableEq ρ]

omit [DecidableEq ρ] in
theorem counted_initial {stateRows : Entries Ref StoredRow} (hrows : RowsNamed stateRows) :
    Counted dateParse (initial stateRows : State ρ).db where
  refines := refines_initial dateParse stateRows
  revised := ⟨(fun _ _ h => nomatch h), fun _ _ => rfl⟩
  times := fun _ h => nomatch h
  rows := hrows
  signatures := fun _ _ h => nomatch h

/-- An event that is no projection leaves the tables as they are. -/
theorem step_tables (s : State ρ) {event : Event ρ} (hevent : ∀ reader, event ≠ .project reader) :
    (step dateParse s event).1.db = { s.db with
      stateRows := (step dateParse s event).1.db.stateRows
      pending := (step dateParse s event).1.db.pending } := by
  cases event with
  | insert ref row =>
    simp only [step]
    split
    · rfl
    · rw [enqueue_eq]
  | update old new row =>
    simp only [step]
    split
    · rfl
    · rw [enqueue_eq, enqueue_eq]
  | delete ref =>
    simp only [step]
    split
    · rw [enqueue_eq]
    · rfl
  | capture reader batch =>
    simp only [step]
    split
    · rfl
    · rfl
  | project reader => exact absurd rfl (hevent reader)

theorem step_rowsNamed {s : State ρ} (h : RowsNamed s.db.stateRows) {event : Event ρ} (hevent : EventNamed event)
    (hproject : ∀ reader, event ≠ .project reader) : RowsNamed (step dateParse s event).1.db.stateRows := by
  cases event with
  | insert ref row =>
    simp only [step]
    split
    · exact h
    · rw [enqueue_eq]
      intro entry hentry
      rcases Table.mem_set.mp hentry with rfl | ⟨hold, -⟩
      · exact hevent
      · exact h entry hold
  | update old new row =>
    simp only [step]
    split
    · exact h
    · rw [enqueue_eq, enqueue_eq]
      intro entry hentry
      rcases Table.mem_set.mp hentry with rfl | ⟨hold, -⟩
      · exact hevent
      · exact h entry (Table.mem_delete.mp hold).1
  | delete ref =>
    simp only [step]
    split
    · rw [enqueue_eq]
      intro entry hentry
      exact h entry (Table.mem_delete.mp hentry).1
    · exact h
  | capture reader batch =>
    simp only [step]
    split
    · exact h
    · exact h
  | project reader => exact absurd rfl (hproject reader)

theorem Counted.step {s : State ρ} (h : Counted dateParse s.db) {event : Event ρ} (hevent : EventNamed event) :
    Counted dateParse (step dateParse s event).1.db := by
  have hrefines := h.refines.step dateParse event
  by_cases hproject : ∃ reader, event = .project reader
  · obtain ⟨reader, rfl⟩ := hproject
    simp only [History.step]
    split
    · exact h
    · next ref rest _ =>
      split
      · exact h.project dateParse ref
      · exact h
  · have hother : ∀ reader, event ≠ .project reader := fun reader heq => hproject ⟨reader, heq⟩
    have htables := step_tables dateParse s hother
    have hrows := step_rowsNamed dateParse h.rows hevent hother
    refine ⟨hrefines, ?_, ?_, hrows, ?_⟩
    · rw [htables]
      exact ⟨h.revised.bounded, h.revised.absent⟩
    · rw [htables]
      exact h.times
    · rw [htables]
      exact h.signatures

/-! ### The invariant of a cached answer -/

/-- The answer counts what its projects counted when it was stamped. -/
structure Held (db : Db) (cache : CountCache) (revision : String → Option ℕ)
    (items : String → Multiset (String × Int)) (runs : String → String → ℕ) : Prop where
  nodup : cache.stamp.projects.Nodup
  stamped : cache.stamp.revisions =
    cache.stamp.projects.filterMap fun q => (revision q).map fun number => (q, number)
  absent : ∀ q, revision q = none → items q = 0 ∧ ∀ role, runs q role = 0
  bounded : ∀ q number, revision q = some number → number ≤ db.revisions.countRevision
  current : ∀ q number, revision q = some number → db.revisions.countProjects.at? q = some number →
    items q = datedOf db q ∧ ∀ role, runs q role = tally db (q, role)
  answers : Answers cache (cache.stamp.projects.map items).sum fun role =>
    (cache.stamp.projects.map fun q => runs q role).sum

def HeldCaches (db : Db) (caches : CountCaches) : Prop :=
  ∀ row ∈ caches.rows, ∃ revision items runs, Held db row.2 revision items runs

/-- An answer for what the tables hold, under their stamp. -/
theorem held_now {db : Db} (h : Counted dateParse db) {projects : List String} (hnodup : projects.Nodup)
    {cache : CountCache} (hstamp : cache.stamp = countCacheStamp db projects)
    (hanswers : Answers cache (itemsOf db projects) (runsOf db projects)) :
    Held db cache (fun q => db.revisions.countProjects.at? q) (datedOf db) fun q role => tally db (q, role) where
  nodup := by
    rw [hstamp]
    exact hnodup
  stamped := by
    rw [hstamp]
    rfl
  absent := fun _ hnone => h.absent dateParse hnone
  bounded := h.revised.bounded
  current := fun _ _ _ _ => ⟨rfl, fun _ => rfl⟩
  answers := by
    rw [hstamp]
    exact hanswers

/-- **An answer under the current stamp answers for what the tables hold.** -/
theorem Held.now {db : Db} (hcounted : Counted dateParse db) {cache : CountCache} {revision : String → Option ℕ}
    {items : String → Multiset (String × Int)} {runs : String → String → ℕ} (h : Held db cache revision items runs)
    {projects : List String} (hstamp : cache.stamp = countCacheStamp db projects) :
    Answers cache (itemsOf db projects) (runsOf db projects) := by
  have hprojects : cache.stamp.projects = projects := congrArg CountStamp.projects hstamp
  have hrevisions : cache.stamp.revisions = (countCacheStamp db projects).revisions :=
    congrArg CountStamp.revisions hstamp
  have hsame : ∀ q ∈ projects, revision q = db.revisions.countProjects.at? q := by
    have hlists := h.stamped.symm.trans hrevisions
    rw [hprojects] at hlists
    have hmem : ∀ (lookup : String → Option ℕ) (q : String) (number : ℕ),
        (q, number) ∈ projects.filterMap (fun q => (lookup q).map fun number => (q, number)) ↔
          q ∈ projects ∧ lookup q = some number := by
      intro lookup q number
      rw [List.mem_filterMap]
      constructor
      · rintro ⟨other, hother, hsome⟩
        obtain ⟨value, hvalue, heq⟩ := Option.map_eq_some_iff.mp hsome
        obtain ⟨rfl, rfl⟩ := Prod.mk.inj heq
        exact ⟨hother, hvalue⟩
      · rintro ⟨hq, hsome⟩
        exact ⟨q, hq, Option.map_eq_some_iff.mpr ⟨number, hsome, rfl⟩⟩
    intro q hq
    apply Option.ext
    intro number
    have hleft := hmem revision q number
    have hright := hmem (fun q => db.revisions.countProjects.at? q) q number
    rw [hlists] at hleft
    constructor
    · exact fun hsome => (hright.mp (hleft.mpr ⟨hq, hsome⟩)).2
    · exact fun hsome => (hleft.mp (hright.mpr ⟨hq, hsome⟩)).2
  have hcontent : ∀ q ∈ projects, items q = datedOf db q ∧ ∀ role, runs q role = tally db (q, role) := by
    intro q hq
    have hrevision := hsame q hq
    cases hat : db.revisions.countProjects.at? q with
    | some number => exact h.current q number (hrevision.trans hat) hat
    | none =>
      obtain ⟨hitems, hruns⟩ := h.absent q (hrevision.trans hat)
      obtain ⟨hdated, htally⟩ := hcounted.absent dateParse hat
      exact ⟨hitems.trans hdated.symm, fun role => (hruns role).trans (htally role).symm⟩
  have hanswers := h.answers
  rw [hprojects, List.map_congr_left fun q hq => (hcontent q hq).1] at hanswers
  have hruns : (fun role => (projects.map fun q => runs q role).sum) = runsOf db projects := by
    funext role
    exact congrArg List.sum (List.map_congr_left fun q hq => (hcontent q hq).2 role)
  rw [hruns] at hanswers
  exact hanswers

/-! ### Steps of the tables -/

/-- A projection elsewhere makes a stamp old, or leaves what the project counts. -/
theorem Held.elsewhere {db next : Db} {update : Option CountUpdate} (hstep : CountStep dateParse db next update)
    (hnamed : ∀ change, update = some change → SignatureNamed change.oldSignature ∧ SignatureNamed change.newSignature)
    {cache : CountCache} {revision : String → Option ℕ} {items : String → Multiset (String × Int)}
    {runs : String → String → ℕ} (h : Held db cache revision items runs) :
    Held next cache revision items runs where
  nodup := h.nodup
  stamped := h.stamped
  absent := h.absent
  answers := h.answers
  bounded q number hsome := by
    have hold := h.bounded q number hsome
    cases hupdate : update with
    | none => exact hold.trans (hstep.unchanged hupdate).2.2.2.ge
    | some change =>
      rw [(hstep.moved change hupdate).2.2.1]
      omega
  current q number hsome hat := by
    have hold := h.bounded q number hsome
    cases hupdate : update with
    | none =>
      obtain ⟨hdated, htally, hentries, -⟩ := hstep.unchanged hupdate
      obtain ⟨hitems, hruns⟩ := h.current q number hsome ((hentries q).symm.trans hat)
      exact ⟨hitems.trans (hdated q).symm, fun role => (hruns role).trans (htally (q, role)).symm⟩
    | some change =>
      obtain ⟨hdated, htally, -, hentries⟩ := hstep.moved change hupdate
      obtain ⟨hnamedOld, hnamedNew⟩ := hnamed change hupdate
      rcases hentries q with hnone | hnew | ⟨hsame, hnotOld, hnotNew⟩
      · rw [hnone] at hat
        contradiction
      · rw [hnew] at hat
        have heq := Option.some.inj hat
        omega
      · obtain ⟨hitems, hruns⟩ := h.current q number hsome (hsame.symm.trans hat)
        have hq := hdated q
        rw [datedShare_eq dateParse hnamedOld, if_neg hnotOld, datedShare_eq dateParse hnamedNew, if_neg hnotNew,
          add_zero, add_zero] at hq
        refine ⟨hitems.trans hq.symm, fun role => (hruns role).trans ?_⟩
        have hrole := htally (q, role)
        rw [share, if_neg hnotOld, share, if_neg hnotNew] at hrole
        exact hrole.symm

theorem sum_owner {M : Type*} [AddCommMonoid M] {projects : List String} (hnodup : projects.Nodup)
    (owner : Option String) (amount : M) : (projects.map fun q => if owner = some q then amount else 0).sum =
      if ∃ name, owner = some name ∧ name ∈ projects then amount else 0 := by
  induction projects with
  | nil => simp
  | cons first rest ih =>
    obtain ⟨hfresh, hrest⟩ := List.nodup_cons.mp hnodup
    rw [List.map_cons, List.sum_cons, ih hrest]
    by_cases hfirst : owner = some first
    · have hnot : ¬∃ name, owner = some name ∧ name ∈ rest := by
        rintro ⟨name, hname, hmem⟩
        obtain rfl := Option.some.inj (hfirst.symm.trans hname)
        exact hfresh hmem
      rw [if_pos hfirst, if_neg hnot, add_zero, if_pos ⟨first, hfirst, List.mem_cons_self⟩]
    · rw [if_neg hfirst, zero_add]
      apply if_congr _ rfl rfl
      constructor
      · rintro ⟨name, hname, hmem⟩
        exact ⟨name, hname, List.mem_cons_of_mem _ hmem⟩
      · rintro ⟨name, hname, hmem⟩
        rcases List.mem_cons.mp hmem with hsame | hmem
        · exact absurd (hsame ▸ hname) hfirst
        · exact ⟨name, hname, hmem⟩

/-- **A patched answer** answers for what the tables hold after the projection. -/
theorem answers_patched {db next : Db} {change : CountUpdate} (hstep : CountStep dateParse db next (some change))
    (hnamedOld : SignatureNamed change.oldSignature) (hnamedNew : SignatureNamed change.newSignature)
    {aliases : Aliases} {cachedProject : String} {projects : List String}
    (hprojects : projects = aliasedProjects aliases cachedProject) {cache : CountCache}
    (h : Answers cache (itemsOf db projects) (runsOf db projects)) (stamp : CountStamp) :
    Answers (patchCache dateParse stamp (owns aliases cachedProject change.oldProject)
      (owns aliases cachedProject change.newProject) change cache) (itemsOf next projects) (runsOf next projects) := by
  obtain ⟨hdated, htally, -, -⟩ := hstep.moved change rfl
  have hnodup : projects.Nodup := hprojects ▸ nodup_aliasedProjects aliases cachedProject
  have howns : ∀ owner, (∃ name, owner = some name ∧ name ∈ projects) ↔ owns aliases cachedProject owner = true := by
    intro owner
    rw [owns_iff, hprojects]
  have hcoe : ∀ (own : Bool) (attempts : List (String × Int)),
      ((if own then attempts else [] : List (String × Int)) : Multiset (String × Int)) =
        if own = true then (attempts : Multiset (String × Int)) else 0 := by
    intro own attempts
    cases own <;> rfl
  have hcount : ∀ (own : Bool) (roles : List String) (role : String),
      (if own then roles else []).count role = if own = true then roles.count role else 0 := by
    intro own roles role
    cases own <;> rfl
  apply h.patch
  · rw [hcoe, hcoe]
    have hsum : (projects.map fun q => datedOf next q +
          datedShare dateParse change.oldProject change.oldSignature q).sum =
        (projects.map fun q => datedOf db q +
          datedShare dateParse change.newProject change.newSignature q).sum :=
      congrArg List.sum (List.map_congr_left fun q _ => hdated q)
    rw [List.sum_map_add, List.sum_map_add,
      List.map_congr_left fun q _ => datedShare_eq dateParse hnamedOld q,
      List.map_congr_left fun q _ => datedShare_eq dateParse hnamedNew q,
      sum_owner hnodup, sum_owner hnodup] at hsum
    simp only [howns] at hsum
    exact hsum
  · intro role
    rw [hcount, hcount]
    have hsum : (projects.map fun q => tally next (q, role) +
          share change.oldProject change.oldSignature.roles (q, role)).sum =
        (projects.map fun q => tally db (q, role) +
          share change.newProject change.newSignature.roles (q, role)).sum :=
      congrArg List.sum (List.map_congr_left fun q _ => htally (q, role))
    unfold share at hsum
    dsimp only at hsum
    rw [List.sum_map_add, List.sum_map_add, sum_owner hnodup, sum_owner hnodup] at hsum
    simp only [howns] at hsum
    exact hsum

/-! ### Every run -/

theorem Held.queued {db : Db} {rows : Entries Ref StoredRow} {pending : List Ref} {cache : CountCache}
    {revision : String → Option ℕ} {items : String → Multiset (String × Int)} {runs : String → String → ℕ}
    (h : Held db cache revision items runs) :
    Held { db with stateRows := rows, pending := pending } cache revision items runs :=
  ⟨h.nodup, h.stamped, h.absent, h.bounded, h.current, h.answers⟩

theorem projectOne_named {db : Db} (h : Counted dateParse db) (ref : Ref) :
    ∀ change, (projectOne dateParse db ref).2 = some change →
      SignatureNamed change.oldSignature ∧ SignatureNamed change.newSignature := by
  intro change hchange
  obtain ⟨hold, hnew⟩ := projectOne_update dateParse hchange
  rw [hold, hnew]
  exact ⟨h.signatures ref, h.named_row dateParse ref⟩

theorem HeldCaches.projectOne {db : Db} (hcounted : Counted dateParse db) {caches : CountCaches}
    (h : HeldCaches db caches) (ref : Ref) (pending : List Ref) :
    HeldCaches { (projectOne dateParse db ref).1 with pending := pending } caches := by
  intro row hrow
  obtain ⟨revision, items, runs, hheld⟩ := h row hrow
  have hstep := projectOne_counts dateParse hcounted.refines hcounted.revised hcounted.times ref
  exact ⟨revision, items, runs, (hheld.elsewhere dateParse hstep (projectOne_named dateParse hcounted ref)).queued⟩

theorem HeldCaches.step {s : State ρ} (hcounted : Counted dateParse s.db) {caches : CountCaches}
    (h : HeldCaches s.db caches) (event : Event ρ) : HeldCaches (step dateParse s event).1.db caches := by
  by_cases hproject : ∃ reader, event = .project reader
  · obtain ⟨reader, rfl⟩ := hproject
    simp only [History.step]
    split
    · exact h
    · next ref rest _ =>
      split
      · exact h.projectOne dateParse hcounted ref _
      · exact h
  · rw [step_tables dateParse s fun reader heq => hproject ⟨reader, heq⟩]
    intro row hrow
    obtain ⟨revision, items, runs, hheld⟩ := h row hrow
    exact ⟨revision, items, runs, hheld.queued⟩

/-- The patched answers, and only those, are kept. -/
theorem HeldCaches.patched {db next : Db} (hcounted : Counted dateParse db) (hnext : Counted dateParse next)
    {change : CountUpdate} (hstep : CountStep dateParse db next (some change))
    (hnamed : SignatureNamed change.oldSignature ∧ SignatureNamed change.newSignature) {caches : CountCaches}
    (h : HeldCaches db caches) (aliases : Aliases) :
    HeldCaches next (updateWarmCountCaches dateParse aliases db next change caches) := by
  intro row hrow
  unfold updateWarmCountCaches at hrow
  dsimp only at hrow
  rw [Table.rows_mapRows, List.mem_map] at hrow
  obtain ⟨⟨cachedProject, cache⟩, hallowed, rfl⟩ := hrow
  rw [Table.mem_filter, Bool.and_eq_true, decide_eq_true_eq, decide_eq_true_eq] at hallowed
  obtain ⟨hmem, hstamp, hprojects⟩ := hallowed
  obtain ⟨revision, items, runs, hheld⟩ := h _ hmem
  have hanswers := hheld.now dateParse hcounted hstamp
  exact ⟨_, _, _, held_now dateParse hnext hheld.nodup rfl
    (answers_patched dateParse hstep hnamed.1 hnamed.2 hprojects hanswers _)⟩

/-- What holds of one process in every run. -/
structure WarmHolds (s : Warm ρ) : Prop where
  counted : Counted dateParse s.state.db
  caches : HeldCaches s.state.db s.caches

omit [DecidableEq ρ] in
/-- The cached answer that a read finds under its stamp. -/
theorem WarmHolds.answers {s : Warm ρ} (h : WarmHolds dateParse s) {project : String} {cached : CountCache}
    (hat : s.caches.at? (canonicalProject s.aliases project) = some cached)
    (hstamp : cached.stamp = countCacheStamp s.state.db (aliasedProjects s.aliases project)) :
    Answers cached (itemsOf s.state.db (aliasedProjects s.aliases project))
      (runsOf s.state.db (aliasedProjects s.aliases project)) := by
  obtain ⟨revision, items, runs, hheld⟩ := h.caches _ (Entries.at?_eq_some.mp hat)
  exact hheld.now dateParse h.counted hstamp

omit [DecidableEq ρ] in
theorem WarmHolds.set {s : Warm ρ} (h : WarmHolds dateParse s) {project key : String} {cache : CountCache}
    (hstamp : cache.stamp = countCacheStamp s.state.db (aliasedProjects s.aliases project))
    (hanswers : Answers cache (itemsOf s.state.db (aliasedProjects s.aliases project))
      (runsOf s.state.db (aliasedProjects s.aliases project))) :
    HeldCaches s.state.db (s.caches.set (key, cache)) := by
  intro row hrow
  rcases Table.mem_set.mp hrow with rfl | ⟨hold, -⟩
  · exact ⟨_, _, _, held_now dateParse h.counted (nodup_aliasedProjects s.aliases project) hstamp hanswers⟩
  · exact h.caches row hold

omit [DecidableEq ρ] in
theorem WarmHolds.recount {s : Warm ρ} (h : WarmHolds dateParse s) (project : String) (now : Int) :
    Answers (History.recount s.state.db (aliasedProjects s.aliases project) now)
      (itemsOf s.state.db (aliasedProjects s.aliases project))
      (runsOf s.state.db (aliasedProjects s.aliases project)) :=
  answers_recount h.counted.refines.counts (nodup_aliasedProjects s.aliases project) now

/-- Answers of one time for the same attempts and runs are the same. -/
theorem Answers.value_eq {cache other : CountCache} {items : Multiset (String × Int)} {runs : String → ℕ}
    (h : Answers cache items runs) (hother : Answers other items runs)
    (hwindow : ∀ role, windowed COUNT_WINDOW_MS cache.at items role = windowed COUNT_WINDOW_MS other.at items role)
    (role : String) : cache.value.at? role = other.value.at? role := by
  rw [h.value role, hother.value role]
  exact congrArg (shown (runs role)) (hwindow role)

theorem beforeUntil_iff {now : Int} {until_ : Option Int} :
    beforeUntil now until_ = true ↔ ∀ time, until_ = some time → now < time := by
  unfold beforeUntil
  cases until_ <;> simp

omit [DecidableEq ρ] in
/-- **A read**: its answer is the recount's, and it keeps the invariant. -/
theorem WarmHolds.read {s : Warm ρ} (h : WarmHolds dateParse s) (project : String) (now : Int) :
    (∀ role, (historyAttemptCounts s.aliases s.state.db s.caches project now).2.at? role =
      (History.recount s.state.db (aliasedProjects s.aliases project) now).value.at? role) ∧
    HeldCaches s.state.db (historyAttemptCounts s.aliases s.state.db s.caches project now).1 := by
  have hfresh := h.recount dateParse project now
  unfold historyAttemptCounts
  dsimp only
  cases hat : s.caches.at? (canonicalProject s.aliases project) with
  | none => exact ⟨fun _ => rfl, h.set dateParse rfl hfresh⟩
  | some cached =>
    dsimp only
    by_cases hwarm : cached.stamp = countCacheStamp s.state.db (aliasedProjects s.aliases project) ∧ cached.at ≤ now
    · rw [if_pos hwarm]
      have hanswers := h.answers dateParse hat hwarm.1
      by_cases hbefore : beforeUntil now cached.until_ = true
      · rw [if_pos hbefore]
        refine ⟨hanswers.value_eq hfresh fun role => ?_, h.caches⟩
        exact (hanswers.bounds.windowed_eq hwarm.2 (beforeUntil_iff.mp hbefore) role).symm
      · rw [if_neg hbefore]
        have hmoved := hanswers.cross (nodup_aliasedProjects s.aliases project) hwarm.2
        exact ⟨hmoved.value_eq hfresh fun _ => rfl, h.set dateParse hwarm.1 hmoved⟩
    · rw [if_neg hwarm]
      exact ⟨fun _ => rfl, h.set dateParse rfl hfresh⟩

def WarmEvent.Named : WarmEvent ρ → Prop
  | .elsewhere event => EventNamed event
  | _ => True

theorem WarmHolds.step {s : Warm ρ} (h : WarmHolds dateParse s) {event : WarmEvent ρ} (hevent : event.Named) :
    WarmHolds dateParse (warmStep dateParse s event).1 := by
  cases event with
  | elsewhere event => exact ⟨h.counted.step dateParse hevent, h.caches.step dateParse h.counted event⟩
  | project reader =>
    have hnamed : EventNamed (.project reader : Event ρ) := trivial
    have hcounted := h.counted.step dateParse hnamed
    refine ⟨hcounted, ?_⟩
    simp only [warmStep, projectHere, History.step]
    cases hbatch : s.state.batch reader with
    | nil => exact h.caches
    | cons ref rest =>
      dsimp only
      by_cases hpending : ref ∈ s.state.db.pending
      · rw [if_pos hpending, if_pos hpending]
        have hstep := projectOne_counts dateParse h.counted.refines h.counted.revised h.counted.times ref
        have hnamed := projectOne_named dateParse h.counted ref
        have hnext := h.counted.project dateParse ref
        have helsewhere := h.caches.projectOne dateParse h.counted ref
        cases hone : projectOne dateParse s.state.db ref with
        | mk next update =>
          rw [hone] at hstep hnamed hnext helsewhere
          cases update with
          | none => exact helsewhere _
          | some change =>
            have hpatched := HeldCaches.patched dateParse h.counted hnext
              ⟨⟨hstep.revised.bounded, hstep.revised.absent⟩, hstep.timesParsed, (fun hnone => by cases hnone),
                hstep.moved⟩ (hnamed change rfl) h.caches s.aliases
            exact hpatched
      · rw [if_neg hpending, if_neg hpending]
        exact h.caches
  | read project now => exact ⟨h.counted, (h.read dateParse project now).2⟩
  | setAliases aliases => exact ⟨h.counted, h.caches⟩
  | evict project =>
    refine ⟨h.counted, fun row hrow => ?_⟩
    exact h.caches row (Table.mem_delete.mp hrow).1

/-- A process that starts with no answers. -/
def Warm.initial (stateRows : Entries Ref StoredRow) (aliases : Aliases) : Warm ρ :=
  ⟨History.initial stateRows, aliases, Table.empty⟩

/-- **Warm attempt counts equal a recount.**  After every run, a read of any project at any time answers
what the full query would, and a cached answer under the current stamp is that of the full query at
every time before its bound. -/
theorem warm_counts_eq_recount {stateRows : Entries Ref StoredRow} (hrows : RowsNamed stateRows) (aliases : Aliases)
    {events : List (WarmEvent ρ)} (hevents : ∀ event ∈ events, event.Named) (project : String) (now : Int) :
    let s := after (warmStep dateParse) (Warm.initial stateRows aliases) events
    let projects := aliasedProjects s.aliases project
    (∀ role, (historyAttemptCounts s.aliases s.state.db s.caches project now).2.at? role =
      (History.recount s.state.db projects now).value.at? role) ∧
    ∀ cached, s.caches.at? (canonicalProject s.aliases project) = some cached →
      cached.stamp = countCacheStamp s.state.db projects → cached.at ≤ now → beforeUntil now cached.until_ = true →
        ∀ role, (History.recount s.state.db projects now).value.at? role =
          (History.recount s.state.db projects cached.at).value.at? role := by
  intro s projects
  have hholds : WarmHolds dateParse s := after_of_everyCall (P := WarmHolds dateParse)
    (Q := fun _ event => event.Named) (fun _ _ h hnamed => h.step dateParse hnamed)
    ⟨counted_initial dateParse hrows, fun row hrow => absurd hrow List.not_mem_nil⟩
    (fun pre event post heq => hevents event (heq ▸ List.mem_append_right _ List.mem_cons_self))
  refine ⟨(hholds.read dateParse project now).1, fun cached hat hstamp hnow hbefore role => ?_⟩
  have hcached := hholds.answers dateParse hat hstamp
  apply (hholds.recount dateParse project now).value_eq (hholds.recount dateParse project cached.at)
  exact fun role => hcached.bounds.windowed_eq hnow (beforeUntil_iff.mp hbefore) role

/-- A pipeline with an attempt at the fifth millisecond, projected by this process after a read. -/
def attemptRun : List (WarmEvent ℕ) :=
  let ref : Ref := ⟨.pipelines, "p1"⟩
  let started : Attempt := ⟨1, "running", none, none, none, none, some "5", none, none⟩
  [.elsewhere (.insert ref ⟨0, .pipeline
      ⟨"a", "running", none, [⟨"fix", some "builder"⟩], [⟨"fix", [started]⟩]⟩⟩),
    .read "a" 1, .elsewhere (.capture 0 [ref]), .project 0]

/-- The answer that was cached before the attempt shows it from its time on, and as the recount does. -/
theorem warm_counts_of_attempt :
    let parse := fun text => if text = "5" then some 5 else none
    let s := after (warmStep parse) (Warm.initial Table.empty Table.empty) attemptRun
    (∀ role, (historyAttemptCounts s.aliases s.state.db s.caches "a" 7).2.at? role =
      (recount s.state.db (aliasedProjects s.aliases "a") 7).value.at? role) ∧
    s.caches.rows.map (fun row => row.2.value.rows) = [[("builder", 0)]] ∧
    (historyAttemptCounts s.aliases s.state.db s.caches "a" 7).2.rows = [("builder", 1)] := by
  have hnamed : ∀ event ∈ attemptRun, event.Named := by
    intro event hevent
    simp only [attemptRun, List.mem_cons, List.not_mem_nil, or_false] at hevent
    rcases hevent with rfl | rfl | rfl | rfl
    · simp [WarmEvent.Named, EventNamed, RolesNamed]
    · trivial
    · trivial
    · trivial
  refine ⟨(warm_counts_eq_recount _ (fun row hrow => absurd hrow List.not_mem_nil) Table.empty hnamed "a" 7).1, ?_, ?_⟩
  · decide +kernel
  · decide +kernel

end Delegatus.History
