import Delegatus.MembershipReplay

/-!
# Membership admission on replay

With explicit targets the second call resolves by what the first one recorded: the key that it
left on live rows, and the task it recorded under the fallback origin.  `Settles` is the
condition on the first list under which this leads to the same tasks, and
`membership_converges_iff` says that a replay converges exactly then.
-/

namespace Delegatus.TaskMembership

open LinkStamps (Instant)
open LinkedBoards (LocalTask MembershipIdentity OriginKind TaskAssignment TaskOrigin
  assignmentHoldsIdentity hasIdentity truthy upsertLinked)

/-! ### The condition -/

/-- Recording leaves the identity's key on a live row of the task. -/
def keyedAfter (identity : MembershipIdentity) (now : Instant) (task : LocalTask) : Bool :=
  keyed identity (upsertLinked task identity now).1

/-- Recording leaves the identity's key on some row of the task. -/
def carriesAfter (identity : MembershipIdentity) (now : Instant) (task : LocalTask) : Bool :=
  carriesKey identity (upsertLinked task identity now).1

section

variable (existing : List LocalTask) (input : MembershipInput) (now : Instant)

/-- The first task of the fallback origin is the recorded one, or it gains no key, or there is
no live key that names another. -/
def RecordedFallbackSettles (origin : OriginKind × String) (recorded : LocalTask) : Prop :=
  (∀ task ∈ existing, keyed input.identity task = false) ∨
    ∀ task, existing.find? (ofOrigin (JsStrings.trim input.project) origin) = some task →
      task.id = recorded.id ∨ carriesAfter input.identity now task = false

/-- A removed target: the fallback origin has a task, or the tasks that the fallback joins gain
no live key, or its placeholder does not take the place of the launch's own. -/
def FallbackSettles (origin : OriginKind × String) : Prop :=
  (∃ task ∈ existing, ofOrigin (JsStrings.trim input.project) origin task = true) ∨
    match resolved existing (input.fallingBack origin) with
    | some indexes =>
      JoinsAlike existing (input.fallingBack origin) ∧
        ∀ i ∈ indexes, ∀ task, existing[i]? = some task → keyedAfter input.identity now task = false
    | none => hasKey input.identity = true ∨ input.origin ≠ origin

/-- `task` is the first target of the fallback origin that gains the key, and no other target
gains it live. -/
def Diverts (origin : OriginKind × String) (task : LocalTask) : Prop :=
  existing.find? (fun held => decide (held.id ∈ input.explicitTaskIds) &&
      (ofOrigin (JsStrings.trim input.project) origin held && carriesAfter input.identity now held)) =
    some task ∧
    ∀ other ∈ existing, other.id ∈ input.explicitTaskIds →
      keyedAfter input.identity now other = true → other.id = task.id

/-- Targets that are all there: their key is live before, or the fallback that a recorded target
diverts to is that target alone, or all targets gain the key or none does. -/
def TargetsSettle : Prop :=
  (∃ task ∈ existing, keyed input.identity task = true) ∨
    (∃ origin task, input.fallbackOrigin = some origin ∧ Diverts existing input now origin task ∧
      JsStrings.trim input.project ≠ "" ∧ JsStrings.trim origin.2 ≠ "" ∧
        ∃ held, existing.find? (ofOrigin (JsStrings.trim input.project) origin) = some held ∧
          unique input.explicitTaskIds = [held.id]) ∨
    ((∀ origin task, input.fallbackOrigin = some origin → ¬ Diverts existing input now origin task) ∧
      ((∀ task ∈ existing, task.id ∈ input.explicitTaskIds →
          keyedAfter input.identity now task = false) ∨
        ∀ task ∈ existing, task.id ∈ input.explicitTaskIds →
          keyedAfter input.identity now task = true))

/-- When a replay resolves the tasks of the first call. -/
def Settles : Prop :=
  if input.explicitTaskIds = [] then JoinsAlike existing input
  else
    match input.fallbackOrigin, recordedFallback existing input with
    | some origin, some recorded =>
      if (existing.filter (keyed input.identity)).all (fun task => task.id = recorded.id) then
        RecordedFallbackSettles existing input now origin recorded
      else TargetsSettle existing input now
    | some origin, none =>
      if input.explicitTaskIds.all (fun id => existing.any (fun task => task.id = id)) then
        TargetsSettle existing input now
      else FallbackSettles existing input now origin
    | none, _ => TargetsSettle existing input now

end

/-- The list with the identity recorded on the tasks at `indexes`. -/
def recordAt (existing : List LocalTask) (identity : MembershipIdentity) (now : Instant)
    (indexes : List Nat) : List LocalTask :=
  match Refusals.run (commitMember identity now) (existing, false) indexes with
  | .ok state => state.1
  | .error _ => existing

/-! ### Targets -/

theorem mem_unique {ids : List String} {id : String} : id ∈ unique ids ↔ id ∈ ids := by
  have hfold : ∀ seen : List String,
      id ∈ ids.foldl (fun seen id => if id ∈ seen then seen else seen ++ [id]) seen ↔
        id ∈ seen ∨ id ∈ ids := by
    induction ids with
    | nil => simp
    | cons first rest ih =>
      intro seen
      rw [List.foldl_cons, ih]
      split_ifs with hseen
      · constructor
        · exact Or.imp_right (List.mem_cons_of_mem _)
        · rintro (hmem | hmem)
          · exact Or.inl hmem
          · rcases List.mem_cons.mp hmem with rfl | hmem
            · exact Or.inl hseen
            · exact Or.inr hmem
      · simp [or_assoc]
  simpa [unique] using hfold []

theorem nodup_unique (ids : List String) : (unique ids).Nodup := by
  have hfold : ∀ seen : List String, seen.Nodup →
      (ids.foldl (fun seen id => if id ∈ seen then seen else seen ++ [id]) seen).Nodup := by
    induction ids with
    | nil => exact fun _ h => h
    | cons first rest ih =>
      intro seen hseen
      rw [List.foldl_cons]
      apply ih
      split_ifs with hmem
      · exact hseen
      · rw [List.nodup_append]
        refine ⟨hseen, List.nodup_singleton _, ?_⟩
        rintro id hid _ hsame rfl
        rw [List.mem_singleton.mp hsame] at hid
        exact hmem hid
  exact hfold [] List.nodup_nil

/-- The first place where a predicate holds. -/
theorem find?_place {α : Type} {p : α → Bool} {xs : List α} {x : α} :
    xs.find? p = some x ↔ ∃ k : Nat, xs[k]? = some x ∧ p x = true ∧
      ∀ j y, j < k → xs[j]? = some y → p y = false := by
  rw [List.find?_eq_some_iff_getElem]
  constructor
  · rintro ⟨hx, k, hk, rfl, hbefore⟩
    refine ⟨k, List.getElem?_eq_getElem hk, hx, fun j y hj hy => ?_⟩
    obtain ⟨hlt, rfl⟩ := List.getElem?_eq_some_iff.mp hy
    simpa using hbefore j hj
  · rintro ⟨k, hk, hx, hbefore⟩
    obtain ⟨hlt, rfl⟩ := List.getElem?_eq_some_iff.mp hk
    refine ⟨hx, k, hlt, rfl, fun j hj => ?_⟩
    simpa using hbefore j _ hj (List.getElem?_eq_getElem (by omega))

/-! ### The ways of a call with targets -/

/-- A task was recorded under the fallback origin, and no live key is on another. -/
def Diverted (tasks : List LocalTask) (input : MembershipInput) : Prop :=
  ∃ recorded, recordedFallback tasks input = some recorded ∧
    ∀ task ∈ tasks, keyed input.identity task = true → task.id = recorded.id

/-- The call keeps to the targets that an earlier one had. -/
structure Fits (tasks : List LocalTask) (input : MembershipInput) : Prop where
  placeholder : ∀ task, placeholderForKey tasks input = some task → task.id ∈ unique input.explicitTaskIds
  keyedTasks : tasks.filter (keyed input.identity) = [] ∨
    ((tasks.filter (keyed input.identity)).length = (unique input.explicitTaskIds).length ∧
      ∀ task ∈ tasks.filter (keyed input.identity), task.id ∈ unique input.explicitTaskIds)

/-- The targets belong to the launch's project. -/
def SameProject (canonicalProject : String → String) (tasks : List LocalTask)
    (input : MembershipInput) : Prop :=
  let projects := ((targetIndexes tasks input).filterMap (tasks[·]?)).map
    (fun task => canonicalProject task.project)
  ¬ ((unique projects).length > 1 ∨ (JsStrings.trim input.project ≠ "" ∧
    canonicalProject (JsStrings.trim input.project) ∉ projects))

/-- A target is missing. -/
def Missing (tasks : List LocalTask) (input : MembershipInput) : Prop :=
  ∃ id ∈ input.explicitTaskIds, ∀ task ∈ tasks, task.id ≠ id

/-- The admission checks accept `tasks`, and `members` of them. -/
def Accepts (input : MembershipInput) (tasks members : List LocalTask) : Prop :=
  input.related tasks = none ∧ input.verdict members = none

/-- They accept the tasks at `indexes` once the identity is recorded there. -/
def AcceptsAt (existing : List LocalTask) (input : MembershipInput) (now : Instant)
    (indexes : List Nat) : Prop :=
  Accepts input (recordAt existing input.identity now indexes)
    (indexes.filterMap ((recordAt existing input.identity now indexes)[·]?))

/-- They accept the tasks that an input without targets resolves to, or its placeholder. -/
def AcceptsUntargeted (existing : List LocalTask) (input : MembershipInput)
    (deps : MembershipDeps) : Prop :=
  match resolved existing input with
  | some indexes => AcceptsAt existing input deps.now indexes
  | none => Accepts input (existing ++ [placeholder input deps]) [placeholder input deps]

/-- They accept the tasks that a call records the identity on: its targets, or those that the
fallback origin stands for. -/
def AcceptsRecorded (existing : List LocalTask) (input : MembershipInput)
    (deps : MembershipDeps) : Prop :=
  if input.explicitTaskIds = [] then AcceptsUntargeted existing input deps
  else
    (∀ origin, input.fallbackOrigin = some origin → Diverted existing input ∨ Missing existing input →
        AcceptsUntargeted existing (input.fallingBack origin) deps) ∧
      (input.fallbackOrigin = none ∨ ¬ (Diverted existing input ∨ Missing existing input) →
        AcceptsAt existing input deps.now (targetIndexes existing input))

section

variable {canonicalProject : String → String} {tasks : List LocalTask} {input : MembershipInput}
  {deps : MembershipDeps} {result : MembershipResult} {origin : OriginKind × String}

theorem ensureTaskMembership_diverted (htargets : input.explicitTaskIds ≠ [])
    (hfallback : input.fallbackOrigin = some origin) (hdiverted : Diverted tasks input) :
    ensureTaskMembership canonicalProject tasks input deps = .ok result ↔
      precheck tasks input = .ok () ∧
        ensureUntargeted tasks (input.fallingBack origin) deps = .ok result := by
  obtain ⟨recorded, hrecorded, hkeyed⟩ := hdiverted
  have hall : (tasks.filter (keyed input.identity)).all (fun task => task.id = recorded.id) = true := by
    rw [List.all_eq_true]
    intro task htask
    obtain ⟨hmem, hkey⟩ := List.mem_filter.mp htask
    exact decide_eq_true (hkeyed task hmem hkey)
  unfold ensureTaskMembership
  rw [if_neg htargets, hfallback, hrecorded]
  simp only [hall, if_true]
  refine Refusals.bind_eq_ok.trans ⟨?_, fun h => ⟨(), h⟩⟩
  rintro ⟨_, hcheck, hrest⟩
  exact ⟨hcheck, hrest⟩

theorem ensureTaskMembership_undiverted (htargets : input.explicitTaskIds ≠ [])
    (hundiverted : input.fallbackOrigin.isSome = true → ¬ Diverted tasks input) :
    ensureTaskMembership canonicalProject tasks input deps = .ok result ↔
      precheck tasks input = .ok () ∧ ensureTargeted canonicalProject tasks input deps = .ok result := by
  have hcall : ensureTaskMembership canonicalProject tasks input deps =
      (precheck tasks input).bind fun _ => ensureTargeted canonicalProject tasks input deps := by
    unfold ensureTaskMembership
    rw [if_neg htargets]
    congr 1
    funext _
    split
    · rename_i origin recorded hfallback hrecorded
      rw [if_neg]
      intro hall
      apply hundiverted (by rw [hfallback]; rfl)
      refine ⟨recorded, hrecorded, fun task htask hkey => ?_⟩
      exact of_decide_eq_true (List.all_eq_true.mp hall task (List.mem_filter.mpr ⟨htask, hkey⟩))
    · rfl
  rw [hcall]
  refine Refusals.bind_eq_ok.trans ⟨?_, fun h => ⟨(), h⟩⟩
  rintro ⟨_, hcheck, hrest⟩
  exact ⟨hcheck, hrest⟩

theorem ensureTargeted_ok : ensureTargeted canonicalProject tasks input deps = .ok result ↔
    Fits tasks input ∧ joinTargets canonicalProject tasks input deps = .ok result := by
  unfold ensureTargeted refuse
  dsimp only
  constructor
  · intro h
    split_ifs at h with hplaceholder hkeyed
    refine ⟨⟨fun task hfound => ?_, ?_⟩, h⟩
    · rw [hfound] at hplaceholder
      simpa using hplaceholder
    · by_cases hnone : tasks.filter (keyed input.identity) = []
      · exact Or.inl hnone
      · rw [not_and, not_or] at hkeyed
        obtain ⟨hlength, hin⟩ := hkeyed hnone
        refine Or.inr ⟨not_not.mp hlength, fun task htask => ?_⟩
        by_contra hout
        exact hin (List.any_eq_true.mpr ⟨task, htask, decide_eq_true hout⟩)
  · rintro ⟨⟨hplaceholder, hkeyed⟩, h⟩
    rw [if_neg, if_neg, h]
    · rintro ⟨hsome, hrest⟩
      rcases hkeyed with hnone | ⟨hlength, hin⟩
      · exact hsome hnone
      · rcases hrest with hlength' | hout
        · exact hlength' hlength
        · obtain ⟨task, htask, hnot⟩ := List.any_eq_true.mp hout
          exact of_decide_eq_true hnot (hin task htask)
    · cases hfound : placeholderForKey tasks input with
      | none => simp
      | some task => simp [hplaceholder task hfound]

theorem find?_missing (hmissing : Missing tasks input) : ∃ id,
    (unique input.explicitTaskIds).find? (fun id => !tasks.any (fun task => task.id = id)) = some id := by
  obtain ⟨id, hid, hnone⟩ := hmissing
  apply Option.isSome_iff_exists.mp
  rw [List.find?_isSome]
  exact ⟨id, mem_unique.mpr hid, by simpa using hnone⟩

theorem joinTargets_missing (hmissing : Missing tasks input)
    (hfallback : input.fallbackOrigin = some origin) :
    joinTargets canonicalProject tasks input deps =
      ensureUntargeted tasks (input.fallingBack origin) deps := by
  obtain ⟨id, hfound⟩ := find?_missing hmissing
  unfold joinTargets
  dsimp only
  rw [hfound, hfallback]

theorem joinTargets_missing_ne_ok (hmissing : Missing tasks input)
    (hfallback : input.fallbackOrigin = none) :
    joinTargets canonicalProject tasks input deps ≠ .ok result := by
  obtain ⟨id, hfound⟩ := find?_missing hmissing
  unfold joinTargets refuse
  dsimp only
  rw [hfound, hfallback]
  simp

theorem joinTargets_present (hpresent : ¬ Missing tasks input) :
    joinTargets canonicalProject tasks input deps = .ok result ↔
      SameProject canonicalProject tasks input ∧
        joinTasks tasks input deps.now (targetIndexes tasks input) (unique input.explicitTaskIds) =
          .ok result := by
  have hfound : (unique input.explicitTaskIds).find?
      (fun id => !tasks.any (fun task => task.id = id)) = none := by
    rw [List.find?_eq_none]
    intro id hid hnone
    exact hpresent ⟨id, mem_unique.mp hid, by simpa using hnone⟩
  unfold joinTargets refuse SameProject
  dsimp only
  rw [hfound]
  dsimp only
  split_ifs with hproject
  · exact iff_of_false (fun h => nomatch h) (fun h => h.1 hproject)
  · exact (and_iff_right hproject).symm

end

/-! ### What the recorded list answers -/

section

variable {identity : MembershipIdentity} {now : Instant} {task task' : LocalTask}

theorem Recorded.keyed_eq (h : Recorded identity now task task') :
    keyed identity task' = keyedAfter identity now task := by
  simp only [keyedAfter, keyed, h.rows]

theorem Recorded.carriesKey_eq (h : Recorded identity now task task') :
    carriesKey identity task' = carriesAfter identity now task := by
  simp only [carriesAfter, carriesKey, h.rows]

/-- Each task of the recorded list is a task of the first list, recorded where it was joined. -/
theorem RecordedAt.place {indexes : List Nat} {tasks tasks' : List LocalTask}
    (h : RecordedAt identity now indexes tasks tasks') {i : Nat} (htask : tasks'[i]? = some task') :
    ∃ task, tasks[i]? = some task ∧
      ((i ∈ indexes ∧ Recorded identity now task task') ∨ (i ∉ indexes ∧ task' = task)) := by
  have hlt : i < tasks.length := by
    rw [← h.length]
    exact (List.getElem?_eq_some_iff.mp htask).1
  have hget := List.getElem?_eq_getElem hlt
  refine ⟨tasks[i], hget, ?_⟩
  by_cases hmem : i ∈ indexes
  · obtain ⟨held, hheld, hrecorded⟩ := h.recorded i _ hmem hget
    obtain rfl := Option.some.inj (htask.symm.trans hheld)
    exact Or.inl ⟨hmem, hrecorded⟩
  · exact Or.inr ⟨hmem, Option.some.inj (htask.symm.trans ((h.others i hmem).trans hget))⟩

end

section

variable {canonicalProject : String → String} {tasks existing : List LocalTask}
  {input : MembershipInput} {deps : MembershipDeps} {result first : MembershipResult}
  {origin : OriginKind × String}

theorem recordedFallback_eq (hfallback : input.fallbackOrigin = some origin) :
    recordedFallback tasks input = tasks.find? (fun task =>
      ofOrigin (JsStrings.trim input.project) origin task && carriesKey input.identity task) := by
  rw [recordedFallback, hfallback]
  rfl

/-- A call that takes the fallback origin, by either way. -/
theorem ensureTaskMembership_falls_back (htargets : input.explicitTaskIds ≠ [])
    (hfallback : input.fallbackOrigin = some origin) (hwellformed : input.Wellformed)
    (hway : Diverted tasks input ∨ (Missing tasks input ∧ Fits tasks input)) :
    ensureTaskMembership canonicalProject tasks input deps = .ok result ↔
      ensureUntargeted tasks (input.fallingBack origin) deps = .ok result := by
  have hcheck : ensureUntargeted tasks (input.fallingBack origin) deps = .ok result →
      precheck tasks input = .ok () := by
    intro h
    exact precheck_ok.mpr ⟨hwellformed, (precheck_ok.mp (ensureUntargeted_ok h).1).2⟩
  by_cases hdiverted : Diverted tasks input
  · rw [ensureTaskMembership_diverted htargets hfallback hdiverted]
    exact and_iff_right_of_imp hcheck
  · obtain ⟨hmissing, hfits⟩ := hway.resolve_left hdiverted
    rw [ensureTaskMembership_undiverted htargets (fun _ => hdiverted), ensureTargeted_ok,
      joinTargets_missing hmissing hfallback]
    constructor
    · exact fun h => h.2.2
    · exact fun h => ⟨hcheck h, hfits, h⟩

/-- Where a live key fits the targets, they all exist and hold it, and no other task does. -/
theorem Fits.keyed_iff (hids : (tasks.map LinkedBoards.BoardTask.id).Nodup) (hfits : Fits tasks input)
    (hsome : ∃ task ∈ tasks, keyed input.identity task = true) :
    ¬ Missing tasks input ∧
      ∀ task ∈ tasks, keyed input.identity task = true ↔ task.id ∈ input.explicitTaskIds := by
  obtain ⟨held, hheld, hkey⟩ := hsome
  have hmem : held ∈ tasks.filter (keyed input.identity) := List.mem_filter.mpr ⟨hheld, hkey⟩
  obtain ⟨hlength, hin⟩ := hfits.keyedTasks.resolve_left (List.ne_nil_of_mem hmem)
  -- the ids of the keyed tasks are distinct targets, as many as there are targets
  have hnodup : ((tasks.filter (keyed input.identity)).map LinkedBoards.BoardTask.id).Nodup :=
    hids.sublist (List.filter_sublist.map _)
  have hsubset : (tasks.filter (keyed input.identity)).map LinkedBoards.BoardTask.id ⊆
      unique input.explicitTaskIds := by
    intro id hid
    obtain ⟨task, htask, rfl⟩ := List.mem_map.mp hid
    exact hin task htask
  have hperm := (hnodup.subperm hsubset).perm_of_length_le (by rw [List.length_map, hlength])
  have hexists : ∀ id ∈ input.explicitTaskIds,
      ∃ task ∈ tasks, keyed input.identity task = true ∧ task.id = id := by
    intro id hid
    obtain ⟨task, htask, rfl⟩ := List.mem_map.mp (hperm.mem_iff.mpr (mem_unique.mpr hid))
    obtain ⟨hmem, hkey⟩ := List.mem_filter.mp htask
    exact ⟨task, hmem, hkey, rfl⟩
  constructor
  · rintro ⟨id, hid, hnone⟩
    obtain ⟨task, htask, -, hsame⟩ := hexists id hid
    exact hnone task htask hsame
  · intro task htask
    constructor
    · intro hkey
      exact mem_unique.mp (hin task (List.mem_filter.mpr ⟨htask, hkey⟩))
    · intro hid
      obtain ⟨other, hother, hkey, hsame⟩ := hexists task.id hid
      rwa [← List.inj_on_of_nodup_map hids hother htask hsame]

/-- With a live key a call with targets that is not diverted answers the targets. -/
theorem taskIds_of_keyed (hids : (tasks.map LinkedBoards.BoardTask.id).Nodup)
    (hsome : ∃ task ∈ tasks, keyed input.identity task = true)
    (h : ensureTargeted canonicalProject tasks input deps = .ok result) :
    ¬ Missing tasks input ∧ result.taskIds = unique input.explicitTaskIds ∧
      ∀ task ∈ tasks, keyed input.identity task = true ↔ task.id ∈ input.explicitTaskIds := by
  obtain ⟨hfits, hjoined⟩ := ensureTargeted_ok.mp h
  obtain ⟨hpresent, hkeyed⟩ := hfits.keyed_iff hids hsome
  obtain ⟨-, hjoined⟩ := (joinTargets_present hpresent).mp hjoined
  refine ⟨hpresent, ?_, hkeyed⟩
  unfold joinTasks at hjoined
  split at hjoined
  · cases hjoined
  · obtain ⟨state, -, rfl⟩ := Refusals.map_eq_ok.mp hjoined
    rfl

end

/-! ### A launch recorded under its fallback origin -/

theorem first_le {α : Type} {p : α → Bool} {xs : List α} {k i : Nat} {x : α}
    (hbefore : ∀ j y, j < k → xs[j]? = some y → p y = false) (hx : xs[i]? = some x)
    (hp : p x = true) : k ≤ i := by
  by_contra hlt
  rw [hbefore i x (by omega) hx] at hp
  cases hp

theorem getElem?_inj_of_ids {tasks : List LocalTask}
    (hids : (tasks.map LinkedBoards.BoardTask.id).Nodup) {i j : Nat} {task other : LocalTask}
    (htask : tasks[i]? = some task) (hother : tasks[j]? = some other) (h : task.id = other.id) :
    i = j := by
  have hi : (tasks.map LinkedBoards.BoardTask.id)[i]? = some task.id := by
    rw [List.getElem?_map, htask]
    rfl
  have hj : (tasks.map LinkedBoards.BoardTask.id)[j]? = some task.id := by
    rw [List.getElem?_map, hother, h]
    rfl
  exact (List.getElem?_inj (List.getElem?_eq_some_iff.mp hi).1 hids).mp (hi.trans hj.symm)

section

variable {canonicalProject : String → String} {existing : List LocalTask}
  {input : MembershipInput} {deps : MembershipDeps} {first : MembershipResult}
  {origin : OriginKind × String} {project : String} {now : Instant} {indexes : List Nat}
  {recorded : List LocalTask}

theorem RecordedAt.ofOrigin_eq (h : RecordedAt input.identity now indexes existing recorded) {i : Nat}
    {task task' : LocalTask} (htask : existing[i]? = some task) (htask' : recorded[i]? = some task') :
    ofOrigin project origin task' = ofOrigin project origin task := by
  obtain ⟨held, hheld, hplace⟩ := h.place htask'
  obtain rfl := Option.some.inj (htask.symm.trans hheld)
  rcases hplace with ⟨-, hrecorded⟩ | ⟨-, rfl⟩
  · exact ofOrigin_of_same project origin hrecorded.project hrecorded.origin
  · rfl

/-- The recorded list diverts to the first task of the fallback origin, or to the recorded one
where that gains no key. -/
theorem RecordedFallbackSettles.diverted {index : Nat} {held : LocalTask}
    (hfallback : input.fallbackOrigin = some origin)
    (hrecorded : recordedFallback existing input = some held)
    (hkeyed : ∀ task ∈ existing, keyed input.identity task = true → task.id = held.id)
    (hfound : existing.findIdx? (ofOrigin (JsStrings.trim input.project) origin) = some index)
    (h : RecordedAt input.identity now [index] existing recorded)
    (hsettles : RecordedFallbackSettles existing input now origin held) :
    Diverted recorded input := by
  rw [recordedFallback_eq hfallback] at hrecorded
  obtain ⟨r, hr, hboth, hbefore⟩ := find?_place.mp hrecorded
  obtain ⟨horiginHeld, hcarriesHeld⟩ := Bool.and_eq_true_iff.mp hboth
  obtain ⟨hlt, horigin, hfirst⟩ := List.findIdx?_eq_some_iff_getElem.mp hfound
  have hF := List.getElem?_eq_getElem hlt
  obtain ⟨F', hF', hrecord⟩ := h.recorded index _ List.mem_cons_self hF
  have hindexes : ∀ i, i ∈ [index] ↔ i = index := fun i => List.mem_singleton
  -- the recorded task still has the origin and the key, so the recorded list has a fallback
  have hsome : ∃ held', recordedFallback recorded input = some held' := by
    rw [recordedFallback_eq hfallback, ← Option.isSome_iff_exists, List.find?_isSome]
    by_cases hsame : r = index
    · subst hsame
      obtain rfl := Option.some.inj (hF.symm.trans hr)
      refine ⟨F', List.mem_of_getElem? hF', ?_⟩
      rw [h.ofOrigin_eq hF hF', horiginHeld, hrecord.carriesKey_mono hcarriesHeld]
      rfl
    · refine ⟨held, List.mem_of_getElem? ((h.others r (by simpa using hsame)).trans hr), hboth⟩
  obtain ⟨held', hheld'⟩ := hsome
  refine ⟨held', hheld', fun task htask hkey => ?_⟩
  rw [recordedFallback_eq hfallback] at hheld'
  obtain ⟨k, hk, hbothK, hbeforeK⟩ := find?_place.mp hheld'
  obtain ⟨horiginK, hcarriesK⟩ := Bool.and_eq_true_iff.mp hbothK
  obtain ⟨heldK, hheldK, hplaceK⟩ := h.place hk
  have hleK : index ≤ k := by
    refine first_le (p := ofOrigin (JsStrings.trim input.project) origin) ?_ hheldK ?_
    · intro j y hj hy
      obtain ⟨hlt', rfl⟩ := List.getElem?_eq_some_iff.mp hy
      simpa using hfirst j hj
    · rw [← h.ofOrigin_eq hheldK hk, horiginK]
  obtain ⟨i, hi⟩ := List.getElem?_of_mem htask
  obtain ⟨taskX, htaskX, hplace⟩ := h.place hi
  cases hcarries : carriesKey input.identity F' with
  | true =>
    -- the first task of the origin carries the key now
    have hle : k ≤ index := by
      refine first_le hbeforeK hF' ?_
      rw [h.ofOrigin_eq hF hF', horigin, hcarries]
      rfl
    obtain rfl : k = index := by omega
    obtain rfl := Option.some.inj (hk.symm.trans hF')
    rcases hplace with ⟨hmem, -⟩ | ⟨-, rfl⟩
    · obtain rfl := (hindexes i).mp hmem
      rw [Option.some.inj (hi.symm.trans hk)]
    · have htaskId := hkeyed task (List.mem_of_getElem? htaskX) hkey
      rcases hsettles with hnone | hsettles
      · rw [hnone task (List.mem_of_getElem? htaskX)] at hkey
        cases hkey
      · have hfind : existing.find? (ofOrigin (JsStrings.trim input.project) origin) =
            some existing[k] := by
          rw [List.find?_eq_bind_findIdx?_getElem?, hfound]
          exact hF
        rcases hsettles _ hfind with hsame | hnot
        · rw [htaskId, ← hsame, hrecord.id]
        · rw [hrecord.carriesKey_eq, hnot] at hcarries
          cases hcarries
  | false =>
    -- it does not, and the recorded task is as it was
    have hne : r ≠ index := by
      rintro rfl
      obtain rfl := Option.some.inj (hF.symm.trans hr)
      rw [hrecord.carriesKey_mono hcarriesHeld] at hcarries
      cases hcarries
    have hneK : k ≠ index := by
      rintro rfl
      obtain rfl := Option.some.inj (hk.symm.trans hF')
      rw [hcarriesK] at hcarries
      cases hcarries
    rcases hplace with ⟨hmem, -⟩ | ⟨-, rfl⟩
    · obtain rfl := (hindexes i).mp hmem
      obtain rfl := Option.some.inj (hi.symm.trans hF')
      rw [carriesKey_of_keyed hkey] at hcarries
      cases hcarries
    · have htaskId := hkeyed task (List.mem_of_getElem? htaskX) hkey
      rcases hplaceK with ⟨hmem, -⟩ | ⟨-, rfl⟩
      · exact absurd ((hindexes k).mp hmem) hneK
      · have hle : k ≤ r :=
          first_le hbeforeK ((h.others r (by simpa using hne)).trans hr) hboth
        have hge : r ≤ k := first_le hbefore hheldK hbothK
        obtain rfl : k = r := by omega
        obtain rfl := Option.some.inj (hr.symm.trans hheldK)
        exact htaskId

theorem again_congr {call call' : MembershipDeps → Except MembershipFailure MembershipResult}
    (h : ∀ deps result, call deps = .ok result ↔ call' deps = .ok result) :
    Again first call ↔ Again first call' := by
  simp only [Again, h]

theorem readmitted_fallingBack : Readmitted (input.fallingBack origin) first ↔ Readmitted input first :=
  ⟨fun h => ⟨h.related, h.launch⟩, fun h => ⟨h.related, h.launch⟩⟩

theorem joinsAlike_of_origin {task : LocalTask} (htask : task ∈ existing)
    (horigin : ofOrigin (JsStrings.trim input.project) input.origin task = true) :
    JoinsAlike existing input := by
  intro hnone
  rw [hnone task htask] at horigin
  cases horigin

/-- A call that takes the fallback origin again converges as the call without targets does. -/
theorem again_falls_back (hids : (existing.map LinkedBoards.BoardTask.id).Nodup)
    (hfresh : deps.id ∉ existing.map LinkedBoards.BoardTask.id)
    (htargets : input.explicitTaskIds ≠ []) (hfallback : input.fallbackOrigin = some origin)
    (hwellformed : input.Wellformed)
    (h : ensureUntargeted existing (input.fallingBack origin) deps = .ok first)
    (hway : Diverted first.tasks input ∨ (Missing first.tasks input ∧ Fits first.tasks input)) :
    Again first (ensureTaskMembership canonicalProject first.tasks input) ↔
      JoinsAlike existing (input.fallingBack origin) ∧ Readmitted input first := by
  rw [again_congr (fun deps result =>
    ensureTaskMembership_falls_back htargets hfallback hwellformed hway),
    untargeted_again_iff hids hfresh h, readmitted_fallingBack]

theorem joinsAlike_of_fallback {task : LocalTask} (htask : task ∈ existing)
    (horigin : ofOrigin (JsStrings.trim input.project) origin task = true) :
    JoinsAlike existing (input.fallingBack origin) := by
  have hspec := @joinsAlike_of_origin existing (input.fallingBack origin) task htask
  dsimp only [MembershipInput.fallingBack] at hspec
  exact hspec horigin

/-- With an origin task a successful call recorded the identity on the first one. -/
theorem ensureUntargeted_origin {task : LocalTask} (htask : task ∈ existing)
    (horigin : ofOrigin (JsStrings.trim input.project) input.origin task = true)
    (h : ensureUntargeted existing input deps = .ok first) :
    ∃ index, existing.findIdx? (ofOrigin (JsStrings.trim input.project) input.origin) = some index ∧
      first.taskIds = idsAt existing [index] ∧
        RecordedAt input.identity deps.now [index] existing first.tasks := by
  have hfound : ∀ unfound :
      existing.findIdx? (ofOrigin (JsStrings.trim input.project) input.origin) = none, False := by
    intro unfound
    rw [List.findIdx?_eq_none_iff.mp unfound task htask] at horigin
    cases horigin
  rcases (ensureUntargeted_ok h).2 with ⟨indexes, hresolves, htaskIds, hrecorded⟩ | ⟨hnone, -⟩
  · cases hresolves with
    | origin found => exact ⟨_, found, htaskIds, hrecorded⟩
    | held unfound => exact (hfound unfound).elim
    | inherited unfound => exact (hfound unfound).elim
  · exact (hfound (resolved_none.mp hnone).1).elim

/-- The same of a call that falls back. -/
theorem ensureUntargeted_fallback {task : LocalTask} (htask : task ∈ existing)
    (horigin : ofOrigin (JsStrings.trim input.project) origin task = true)
    (h : ensureUntargeted existing (input.fallingBack origin) deps = .ok first) :
    ∃ index, existing.findIdx? (ofOrigin (JsStrings.trim input.project) origin) = some index ∧
      first.taskIds = idsAt existing [index] ∧
        RecordedAt input.identity deps.now [index] existing first.tasks := by
  have hspec := @ensureUntargeted_origin existing (input.fallingBack origin) deps first task htask
  dsimp only [MembershipInput.fallingBack] at hspec
  exact hspec horigin h

/-- The recorded list diverts to no other than the first task of the fallback origin, once that
carries the key. -/
theorem RecordedAt.recordedFallback_id {index : Nat} {task task' : LocalTask}
    (hfallback : input.fallbackOrigin = some origin)
    (hfound : existing.findIdx? (ofOrigin (JsStrings.trim input.project) origin) = some index)
    (h : RecordedAt input.identity now [index] existing recorded)
    (htask : existing[index]? = some task) (hcarries : carriesAfter input.identity now task = true)
    (hheld : recordedFallback recorded input = some task') : task'.id = task.id := by
  rw [recordedFallback_eq hfallback] at hheld
  obtain ⟨k, hk, hboth, hbefore⟩ := find?_place.mp hheld
  obtain ⟨horigin, -⟩ := Bool.and_eq_true_iff.mp hboth
  obtain ⟨hlt, horiginFirst, hfirst⟩ := List.findIdx?_eq_some_iff_getElem.mp hfound
  obtain rfl := Option.some.inj ((List.getElem?_eq_getElem hlt).symm.trans htask)
  obtain ⟨first', hfirst', hrecord⟩ := h.recorded index _ List.mem_cons_self htask
  obtain ⟨heldK, hheldK, -⟩ := h.place hk
  have hge : index ≤ k := by
    refine first_le (p := ofOrigin (JsStrings.trim input.project) origin) ?_ hheldK ?_
    · intro j y hj hy
      obtain ⟨hlt', rfl⟩ := List.getElem?_eq_some_iff.mp hy
      simpa using hfirst j hj
    · rw [← h.ofOrigin_eq hheldK hk, horigin]
  have hle : k ≤ index := by
    refine first_le hbefore hfirst' ?_
    rw [h.ofOrigin_eq htask hfirst', horiginFirst, hrecord.carriesKey_eq, hcarries]
    rfl
  obtain rfl : k = index := by omega
  obtain rfl := Option.some.inj (hk.symm.trans hfirst')
  exact hrecord.id

/-- A live key on the recorded task, with the first task of its origin gaining the key too, is a
target set that the replay refuses. -/
theorem not_again_of_unsettled {index : Nat} {held : LocalTask}
    (hids : (existing.map LinkedBoards.BoardTask.id).Nodup)
    (htargets : input.explicitTaskIds ≠ []) (hfallback : input.fallbackOrigin = some origin)
    (hkeyed : ∀ task ∈ existing, keyed input.identity task = true → task.id = held.id)
    (hfound : existing.findIdx? (ofOrigin (JsStrings.trim input.project) origin) = some index)
    (htaskIds : first.taskIds = idsAt existing [index])
    (h : RecordedAt input.identity now [index] existing first.tasks)
    (hnot : ¬ RecordedFallbackSettles existing input now origin held) :
    ¬ Again first (ensureTaskMembership canonicalProject first.tasks input) := by
  obtain ⟨hlt, -⟩ := List.findIdx?_eq_some_iff_getElem.mp hfound
  have hF := List.getElem?_eq_getElem hlt
  have hfind : existing.find? (ofOrigin (JsStrings.trim input.project) origin) =
      some existing[index] := by
    rw [List.find?_eq_bind_findIdx?_getElem?, hfound]
    exact hF
  unfold RecordedFallbackSettles at hnot
  rw [not_or] at hnot
  have hlive : ∃ live ∈ existing, keyed input.identity live = true := by
    by_contra hnone
    refine hnot.1 (fun task htask => ?_)
    by_contra hkey
    exact hnone ⟨task, htask, Bool.eq_true_of_not_eq_false hkey⟩
  have hother : existing[index].id ≠ held.id ∧
      carriesAfter input.identity now existing[index] = true := by
    constructor
    · intro hsame
      refine hnot.2 (fun task htask => Or.inl ?_)
      obtain rfl := Option.some.inj (hfind.symm.trans htask)
      exact hsame
    · by_contra hcarries
      refine hnot.2 (fun task htask => Or.inr ?_)
      obtain rfl := Option.some.inj (hfind.symm.trans htask)
      exact Bool.eq_false_iff.mpr hcarries
  obtain ⟨live, hlive, hkey⟩ := hlive
  have hliveId := hkeyed live hlive hkey
  -- the live key stays where it is, beside the first task of the origin
  have hkept : live ∈ first.tasks := by
    obtain ⟨i, hi⟩ := List.getElem?_of_mem hlive
    refine List.mem_of_getElem? ((h.others i ?_).trans hi)
    intro hmem
    obtain rfl := List.mem_singleton.mp hmem
    obtain rfl := Option.some.inj (hF.symm.trans hi)
    exact hother.1 hliveId
  have hundiverted : ¬ Diverted first.tasks input := by
    rintro ⟨held', hheld', hall⟩
    apply hother.1
    rw [← h.recordedFallback_id hfallback hfound hF hother.2 hheld', ← hall live hkept hkey, hliveId]
  intro hagain
  obtain ⟨second, hsecond, hids', -⟩ := hagain ⟨⟨"", none⟩, ""⟩
  obtain ⟨-, htargeted⟩ :=
    (ensureTaskMembership_undiverted htargets (fun _ => hundiverted)).mp hsecond
  obtain ⟨-, hunique, hkeyed'⟩ := taskIds_of_keyed (by rw [ids_of_frame h.frame]; exact hids)
    ⟨live, hkept, hkey⟩ htargeted
  have htarget := mem_unique.mpr ((hkeyed' live hkept).mp hkey)
  rw [← hunique, hids', htaskIds] at htarget
  have hsingle : idsAt existing [index] = [existing[index].id] := by simp [idsAt, hF]
  rw [hsingle, List.mem_singleton] at htarget
  exact hother.1 (htarget.symm.trans hliveId)

/-- **Recorded under the fallback origin, a launch converges exactly when** that origin's first
task is the recorded one or does not take its place. -/
theorem recordedFallback_again_iff {held : LocalTask}
    (hids : (existing.map LinkedBoards.BoardTask.id).Nodup)
    (hfresh : deps.id ∉ existing.map LinkedBoards.BoardTask.id)
    (htargets : input.explicitTaskIds ≠ []) (hfallback : input.fallbackOrigin = some origin)
    (hwellformed : input.Wellformed) (hheld : recordedFallback existing input = some held)
    (hkeyed : ∀ task ∈ existing, keyed input.identity task = true → task.id = held.id)
    (h : ensureUntargeted existing (input.fallingBack origin) deps = .ok first) :
    Again first (ensureTaskMembership canonicalProject first.tasks input) ↔
      RecordedFallbackSettles existing input deps.now origin held ∧ Readmitted input first := by
  have hplace := find?_place.mp (recordedFallback_eq hfallback ▸ hheld)
  obtain ⟨r, hr, hboth, -⟩ := hplace
  obtain ⟨horiginHeld, -⟩ := Bool.and_eq_true_iff.mp hboth
  have hmem := List.mem_of_getElem? hr
  obtain ⟨index, hfound, htaskIds, hrecorded⟩ := ensureUntargeted_fallback hmem horiginHeld h
  by_cases hsettles : RecordedFallbackSettles existing input deps.now origin held
  · have hdiverted := hsettles.diverted hfallback hheld hkeyed hfound hrecorded
    rw [again_falls_back hids hfresh htargets hfallback hwellformed h (Or.inl hdiverted)]
    rw [and_iff_right hsettles, and_iff_right (joinsAlike_of_fallback hmem horiginHeld)]
  · refine iff_of_false ?_ (fun h => hsettles h.1)
    exact not_again_of_unsettled hids htargets hfallback hkeyed hfound htaskIds hrecorded hsettles

end

/-! ### A removed target -/

section

variable {canonicalProject : String → String} {tasks tasks' existing : List LocalTask}
  {input : MembershipInput} {deps : MembershipDeps} {first : MembershipResult}
  {origin : OriginKind × String} {now : Instant} {indexes : List Nat}

theorem missing_of_frame (h : tasks'.map frame = tasks.map frame) :
    Missing tasks' input ↔ Missing tasks input := by
  have hids := ids_of_frame h
  have hnone : ∀ (list : List LocalTask) id, (∀ task ∈ list, task.id ≠ id) ↔
      id ∉ list.map LinkedBoards.BoardTask.id := by
    intro list id
    simp [List.mem_map]
  simp only [Missing, hnone, hids]

theorem placeholderForKey_of_frame (h : tasks'.map frame = tasks.map frame) :
    (placeholderForKey tasks' input).map frame = (placeholderForKey tasks input).map frame := by
  have hmap : ∀ list : List LocalTask, (placeholderForKey list input).map frame =
      (list.map frame).find? (fun fields =>
        decide (JsStrings.trim input.project = "" ∨ fields.2.1 = JsStrings.trim input.project) &&
          fields.2.2.any (fun held : TaskOrigin =>
            decide (held.kind = input.origin.1 ∧ held.key = input.origin.2))) := by
    intro list
    simp only [placeholderForKey, hasOrigin, List.find?_map, Function.comp_def, frame]
    congr
  rw [hmap, hmap, h]

theorem Fits.placeholder_of_frame (hfits : Fits tasks input) (h : tasks'.map frame = tasks.map frame)
    (task : LocalTask) (htask : placeholderForKey tasks' input = some task) :
    task.id ∈ unique input.explicitTaskIds := by
  have hframe := @placeholderForKey_of_frame _ _ input h
  rw [htask] at hframe
  obtain ⟨held, hheld, hsame⟩ := Option.map_eq_some_iff.mp hframe.symm
  have hid : held.id = task.id := congrArg Prod.fst hsame
  rw [← hid]
  exact hfits.placeholder held hheld

/-- A retry keeps to its targets where no live key says otherwise. -/
theorem Fits.of_frame (h : tasks'.map frame = tasks.map frame) (hfits : Fits tasks input)
    (hkeyed : ∀ task ∈ tasks', keyed input.identity task = false) : Fits tasks' input := by
  constructor
  · exact hfits.placeholder_of_frame h
  · left
    rw [List.filter_eq_nil_iff]
    intro task htask
    rw [hkeyed task htask]
    exact Bool.false_ne_true

theorem RecordedAt.keyed_place (h : RecordedAt input.identity now indexes existing tasks')
    (hfree : ∀ task ∈ existing, keyed input.identity task = false) {task' : LocalTask}
    (htask' : task' ∈ tasks') (hkey : keyed input.identity task' = true) :
    ∃ i ∈ indexes, ∃ task, existing[i]? = some task ∧ tasks'[i]? = some task' ∧
      Recorded input.identity now task task' := by
  obtain ⟨i, hi⟩ := List.getElem?_of_mem htask'
  obtain ⟨task, htask, hplace⟩ := h.place hi
  rcases hplace with ⟨hmem, hrecorded⟩ | ⟨-, rfl⟩
  · exact ⟨i, hmem, task, htask, hi, hrecorded⟩
  · rw [hfree task' (List.mem_of_getElem? htask)] at hkey
    cases hkey

theorem not_mem_of_ofOrigin {project : String} (hnone : existing.findIdx? (ofOrigin project origin) = none)
    (h : tasks'.findIdx? (ofOrigin project origin) = existing.findIdx? (ofOrigin project origin)) :
    ∀ task ∈ tasks', ofOrigin project origin task = false := by
  rw [hnone] at h
  exact List.findIdx?_eq_none_iff.mp h

theorem recordedFallback_none (hfallback : input.fallbackOrigin = some origin)
    (hnone : ∀ task ∈ tasks, ofOrigin (JsStrings.trim input.project) origin task = false) :
    recordedFallback tasks input = none := by
  rw [recordedFallback_eq hfallback, List.find?_eq_none]
  intro task htask
  simp [hnone task htask]

/-- The first task of the fallback origin gained a live key, and it is the only one. -/
theorem RecordedAt.diverted_of_keyed {index : Nat} (hfallback : input.fallbackOrigin = some origin)
    (hfree : ∀ task ∈ existing, keyed input.identity task = false)
    (hfound : existing.findIdx? (ofOrigin (JsStrings.trim input.project) origin) = some index)
    (h : RecordedAt input.identity now [index] existing tasks')
    (hkey : ∃ task ∈ tasks', keyed input.identity task = true) : Diverted tasks' input := by
  obtain ⟨live, hlive, hkey⟩ := hkey
  obtain ⟨i, hmem, task, htask, hliveAt, hrecord⟩ := h.keyed_place hfree hlive hkey
  obtain rfl := List.mem_singleton.mp hmem
  obtain ⟨hlt, horigin, -⟩ := List.findIdx?_eq_some_iff_getElem.mp hfound
  obtain rfl := Option.some.inj ((List.getElem?_eq_getElem hlt).symm.trans htask)
  have hcarries : carriesAfter input.identity now existing[i] = true := by
    rw [← hrecord.carriesKey_eq]
    exact carriesKey_of_keyed hkey
  have hsome : ∃ held, recordedFallback tasks' input = some held := by
    rw [recordedFallback_eq hfallback, ← Option.isSome_iff_exists, List.find?_isSome]
    refine ⟨live, hlive, ?_⟩
    rw [h.ofOrigin_eq htask hliveAt, horigin, carriesKey_of_keyed hkey]
    rfl
  obtain ⟨held, hheld⟩ := hsome
  refine ⟨held, hheld, fun other hother hkeyOther => ?_⟩
  rw [h.recordedFallback_id hfallback hfound htask hcarries hheld]
  obtain ⟨j, hmem', task', htask', -, hrecord'⟩ := h.keyed_place hfree hother hkeyOther
  obtain rfl := List.mem_singleton.mp hmem'
  obtain rfl := Option.some.inj (htask.symm.trans htask')
  exact hrecord'.id

/-- A removed target, where the fallback origin resolves to tasks. -/
theorem fallback_again_iff_of_recorded
    (hids : (existing.map LinkedBoards.BoardTask.id).Nodup)
    (hfresh : deps.id ∉ existing.map LinkedBoards.BoardTask.id)
    (htargets : input.explicitTaskIds ≠ []) (hfallback : input.fallbackOrigin = some origin)
    (hwellformed : input.Wellformed) (hmissing : Missing existing input) (hfits : Fits existing input)
    (hfree : ∀ task ∈ existing, keyed input.identity task = false)
    (h : ensureUntargeted existing (input.fallingBack origin) deps = .ok first)
    (hresolves : Resolves existing (input.fallingBack origin) indexes)
    (hrecorded : RecordedAt input.identity deps.now indexes existing first.tasks) :
    Again first (ensureTaskMembership canonicalProject first.tasks input) ↔
      FallbackSettles existing input deps.now origin ∧ Readmitted input first := by
  have hmissing' := (missing_of_frame hrecorded.frame).mpr hmissing
  by_cases horigin : ∃ task ∈ existing, ofOrigin (JsStrings.trim input.project) origin task = true
  · obtain ⟨task, htask, horiginTask⟩ := horigin
    have hsettles : FallbackSettles existing input deps.now origin := Or.inl ⟨task, htask, horiginTask⟩
    rw [and_iff_right hsettles]
    obtain ⟨index, hfound, -, hrecorded⟩ := ensureUntargeted_fallback htask horiginTask h
    have hway : Diverted first.tasks input ∨ (Missing first.tasks input ∧ Fits first.tasks input) := by
      by_cases hkey : ∃ task ∈ first.tasks, keyed input.identity task = true
      · exact Or.inl (hrecorded.diverted_of_keyed hfallback hfree hfound hkey)
      · right
        refine ⟨hmissing', hfits.of_frame hrecorded.frame (fun task htask => ?_)⟩
        by_contra hlive
        exact hkey ⟨task, htask, Bool.eq_true_of_not_eq_false hlive⟩
    rw [again_falls_back hids hfresh htargets hfallback hwellformed h hway]
    exact and_iff_right (joinsAlike_of_fallback htask horiginTask)
  · have hnone : ∀ task ∈ existing,
        ofOrigin (JsStrings.trim input.project) origin task = false := by
      intro task htask
      by_contra hin
      exact horigin ⟨task, htask, Bool.eq_true_of_not_eq_false hin⟩
    have hsettles : FallbackSettles existing input deps.now origin ↔
        JoinsAlike existing (input.fallingBack origin) ∧ ∀ i ∈ indexes, ∀ task,
          existing[i]? = some task → keyedAfter input.identity deps.now task = false := by
      unfold FallbackSettles
      rw [resolved_some.mpr hresolves]
      exact or_iff_right horigin
    rw [hsettles]
    by_cases hkeys : ∀ i ∈ indexes, ∀ task, existing[i]? = some task →
        keyedAfter input.identity deps.now task = false
    · have hfits' := hfits.of_frame hrecorded.frame (fun task htask => by
        by_contra hlive
        obtain ⟨i, hi, held, hheld, -, hrecord⟩ :=
          hrecorded.keyed_place hfree htask (Bool.eq_true_of_not_eq_false hlive)
        rw [hrecord.keyed_eq] at hlive
        exact hlive (hkeys i hi held hheld))
      rw [again_falls_back hids hfresh htargets hfallback hwellformed h
        (Or.inr ⟨hmissing', hfits'⟩), and_iff_left hkeys]
    · refine iff_of_false (fun hagain => ?_) (fun h => hkeys h.1.2)
      -- the new live key names tasks that are no targets, and a target is missing
      apply hkeys
      intro i hi task htask
      by_contra hlive
      obtain ⟨task', htask', hrecord⟩ := hrecorded.recorded i task hi htask
      have hkey : keyed input.identity task' = true := by
        rw [hrecord.keyed_eq]
        exact Bool.eq_true_of_not_eq_false hlive
      have hundiverted : ¬ Diverted first.tasks input := by
        rintro ⟨held, hheld, -⟩
        have hnone' := not_mem_of_ofOrigin (List.findIdx?_eq_none_iff.mpr hnone)
          (hrecorded.findIdx?_ofOrigin (JsStrings.trim input.project) origin)
        rw [recordedFallback_none hfallback hnone'] at hheld
        cases hheld
      obtain ⟨second, hsecond, -⟩ := hagain ⟨⟨"", none⟩, ""⟩
      obtain ⟨-, htargeted⟩ :=
        (ensureTaskMembership_undiverted htargets (fun _ => hundiverted)).mp hsecond
      obtain ⟨hpresent, -⟩ := taskIds_of_keyed (by rw [ids_of_frame hrecorded.frame]; exact hids)
        ⟨task', List.mem_of_getElem? htask', hkey⟩ htargeted
      exact hpresent hmissing'

theorem keyed_placeholder (input : MembershipInput) (deps : MembershipDeps)
    (hkey : hasKey input.identity = true) :
    keyed input.identity (placeholder input deps) = true := by
  obtain ⟨row, rest, hrows, hlinked, hcarries⟩ := binds_placeholder input deps
  refine keyed_iff_exists.mpr ⟨row, ?_, ?_, hcarries.sameKey hkey⟩
  · rw [hrows]
    exact List.mem_cons_self
  · simp [hlinked]

theorem carriesKey_of_no_key {identity : MembershipIdentity} (hkey : hasKey identity = false)
    (task : LocalTask) : carriesKey identity task = false := by
  by_contra hcarries
  obtain ⟨row, -, hrow⟩ := carriesKey_iff_exists.mp (Bool.eq_true_of_not_eq_false hcarries)
  rw [sameKey_of_no_key hkey row] at hrow
  cases hrow

/-- A removed target, where the fallback origin got a placeholder. -/
theorem fallback_again_iff_of_created
    (hids : (existing.map LinkedBoards.BoardTask.id).Nodup)
    (hfresh : deps.id ∉ existing.map LinkedBoards.BoardTask.id)
    (hfreshTarget : deps.id ∉ input.explicitTaskIds)
    (htargets : input.explicitTaskIds ≠ []) (hfallback : input.fallbackOrigin = some origin)
    (hwellformed : input.Wellformed) (hmissing : Missing existing input) (hfits : Fits existing input)
    (hfree : ∀ task ∈ existing, keyed input.identity task = false)
    (h : ensureUntargeted existing (input.fallingBack origin) deps = .ok first)
    (hnone : resolved existing (input.fallingBack origin) = none)
    (hfirst : first.tasks = existing ++ [placeholder (input.fallingBack origin) deps]) :
    Again first (ensureTaskMembership canonicalProject first.tasks input) ↔
      FallbackSettles existing input deps.now origin ∧ Readmitted input first := by
  have hunfound := (resolved_none.mp hnone).1
  have hfreeOrigin : ∀ task ∈ existing,
      ofOrigin (JsStrings.trim input.project) origin task = false :=
    fun task htask => List.findIdx?_eq_none_iff.mp hunfound task htask
  have hproject : JsStrings.trim input.project ≠ "" := by
    intro hblank
    exact (precheck_ok.mp (ensureUntargeted_ok h).1).1.1 ⟨hblank, rfl⟩
  have hsettles : FallbackSettles existing input deps.now origin ↔
      (hasKey input.identity = true ∨ input.origin ≠ origin) := by
    unfold FallbackSettles
    rw [hnone]
    refine or_iff_right ?_
    rintro ⟨task, htask, horigin⟩
    rw [hfreeOrigin task htask] at horigin
    cases horigin
  have hplaceholder : ∀ other, ofOrigin (JsStrings.trim input.project) other
      (placeholder (input.fallingBack origin) deps) = decide (origin = other) :=
    ofOrigin_placeholder (input.fallingBack origin) deps
  rw [hsettles]
  generalize hmade : placeholder (input.fallingBack origin) deps = made at hfirst hplaceholder
  have hid : made.id = deps.id := by
    rw [← hmade, placeholder_id]
  have hmissing' : Missing first.tasks input := by
    obtain ⟨id, hid', hgone⟩ := hmissing
    refine ⟨id, hid', fun task htask => ?_⟩
    rw [hfirst, List.mem_append, List.mem_singleton] at htask
    rcases htask with htask | rfl
    · exact hgone task htask
    · intro hsame
      exact hfreshTarget (by rwa [← hid, hsame])
  have hconverges : (Diverted first.tasks input ∨
        (Missing first.tasks input ∧ Fits first.tasks input)) →
      (Again first (ensureTaskMembership canonicalProject first.tasks input) ↔
        Readmitted input first) := by
    intro hway
    rw [again_falls_back hids hfresh htargets hfallback hwellformed h hway]
    exact and_iff_right (joinsAlike_of_unresolved hnone)
  cases hkey : hasKey input.identity with
  | true =>
    rw [hconverges (Or.inl ⟨made, ?_, ?_⟩)]
    · simp
    · have hkeyed : keyed input.identity made = true := by
        rw [← hmade]
        exact keyed_placeholder (input.fallingBack origin) deps hkey
      have hgone : existing.find? (fun task => ofOrigin (JsStrings.trim input.project) origin task &&
          carriesKey input.identity task) = none := by
        rw [List.find?_eq_none]
        intro task htask
        simp [hfreeOrigin task htask]
      have horigin : ofOrigin (JsStrings.trim input.project) origin made = true := by
        simpa using hplaceholder origin
      rw [recordedFallback_eq hfallback, hfirst, List.find?_append, hgone]
      simp [horigin, carriesKey_of_keyed hkeyed]
    · intro task htask hlive
      rw [hfirst, List.mem_append, List.mem_singleton] at htask
      rcases htask with htask | rfl
      · rw [hfree task htask] at hlive
        cases hlive
      · rfl
  | false =>
    have hfree' : ∀ task, keyed input.identity task = false := by
      intro task
      by_contra hlive
      have hcarries := carriesKey_of_keyed (Bool.eq_true_of_not_eq_false hlive)
      rw [carriesKey_of_no_key hkey task] at hcarries
      cases hcarries
    have hfilter : first.tasks.filter (keyed input.identity) = [] := by
      rw [List.filter_eq_nil_iff]
      intro task _
      rw [hfree' task]
      exact Bool.false_ne_true
    by_cases horigin : input.origin = origin
    · -- the placeholder stands for the launch's own origin, and no target has its id
      refine iff_of_false (fun hagain => ?_) (fun h => ?_)
      · have hundiverted : ¬ Diverted first.tasks input := by
          rintro ⟨held, hheld, -⟩
          rw [recordedFallback_eq hfallback] at hheld
          have hboth := List.find?_some hheld
          simp [carriesKey_of_no_key hkey] at hboth
        obtain ⟨second, hsecond, -⟩ := hagain ⟨⟨"", none⟩, ""⟩
        obtain ⟨-, htargeted⟩ :=
          (ensureTaskMembership_undiverted htargets (fun _ => hundiverted)).mp hsecond
        have hfits' := (ensureTargeted_ok.mp htargeted).1
        have hgone : existing.find? (fun task =>
            decide (JsStrings.trim input.project = "" ∨ task.project = JsStrings.trim input.project) &&
              hasOrigin input.origin task) = none := by
          rw [List.find?_eq_none]
          intro task htask
          have hnot := hfreeOrigin task htask
          rw [ofOrigin, ← horigin] at hnot
          simpa [hproject] using hnot
        have hown : ofOrigin (JsStrings.trim input.project) input.origin made = true := by
          rw [horigin]
          simpa using hplaceholder origin
        have hkeyTask : placeholderForKey first.tasks input = some made := by
          unfold placeholderForKey
          dsimp only
          rw [hfirst, List.find?_append, hgone]
          obtain ⟨hin, hhas⟩ := Bool.and_eq_true_iff.mp hown
          simp [of_decide_eq_true hin, hhas]
        have htarget := mem_unique.mp (hfits'.placeholder made hkeyTask)
        rw [hid] at htarget
        exact hfreshTarget htarget
      · rcases h.1 with hbad | hbad
        · cases hbad
        · exact hbad horigin
    · rw [hconverges (Or.inr ⟨hmissing', ⟨fun task htask => ?_, Or.inl hfilter⟩⟩)]
      · simp [horigin]
      · have hnot : hasOrigin input.origin made = false := by
          have hother := hplaceholder input.origin
          rw [decide_eq_false (fun hsame : origin = input.origin => horigin hsame.symm)] at hother
          rw [ofOrigin] at hother
          have hself := hplaceholder origin
          simp only [ofOrigin] at hself
          simp_all
        apply hfits.placeholder task
        unfold placeholderForKey at htask ⊢
        dsimp only at htask ⊢
        rw [hfirst, List.find?_append] at htask
        simpa [hnot] using htask

end

/-! ### Targets that are all there -/

section

variable {tasks tasks' : List LocalTask} {input : MembershipInput}

theorem findIdx?_id {id : String} {i : Nat}
    (h : tasks.findIdx? (fun task => task.id = id) = some i) :
    ∃ task, tasks[i]? = some task ∧ task.id = id := by
  obtain ⟨hlt, hid, -⟩ := List.findIdx?_eq_some_iff_getElem.mp h
  exact ⟨tasks[i], List.getElem?_eq_getElem hlt, of_decide_eq_true hid⟩

theorem findIdx?_of_id (hids : (tasks.map LinkedBoards.BoardTask.id).Nodup) {i : Nat} {task : LocalTask}
    (htask : tasks[i]? = some task) : tasks.findIdx? (fun held => held.id = task.id) = some i := by
  cases hfound : tasks.findIdx? (fun held => held.id = task.id) with
  | none =>
    have hnot := List.findIdx?_eq_none_iff.mp hfound task (List.mem_of_getElem? htask)
    simp at hnot
  | some j =>
    obtain ⟨held, hheld, hsame⟩ := findIdx?_id hfound
    rw [getElem?_inj_of_ids hids hheld htask hsame]

theorem mem_targetIndexes (hids : (tasks.map LinkedBoards.BoardTask.id).Nodup) {i : Nat} :
    i ∈ targetIndexes tasks input ↔
      ∃ task, tasks[i]? = some task ∧ task.id ∈ input.explicitTaskIds := by
  unfold targetIndexes
  rw [List.mem_filterMap]
  constructor
  · rintro ⟨id, hid, hfound⟩
    obtain ⟨task, htask, rfl⟩ := findIdx?_id hfound
    exact ⟨task, htask, mem_unique.mp hid⟩
  · rintro ⟨task, htask, hid⟩
    exact ⟨task.id, mem_unique.mpr hid, findIdx?_of_id hids htask⟩

theorem nodup_targetIndexes (tasks : List LocalTask) (input : MembershipInput) :
    (targetIndexes tasks input).Nodup := by
  refine (nodup_unique _).filterMap ?_
  intro id id' i hi hi'
  obtain ⟨task, htask, rfl⟩ := findIdx?_id hi
  obtain ⟨task', htask', rfl⟩ := findIdx?_id hi'
  rw [Option.some.inj (htask.symm.trans htask')]

theorem targetIndexes_of_frame (h : tasks'.map frame = tasks.map frame) :
    targetIndexes tasks' input = targetIndexes tasks input := by
  unfold targetIndexes
  congr 1
  funext id
  exact findIdx?_of_frame h (fun fields => decide (fields.1 = id))

theorem idsAt_targetIndexes (hpresent : ¬ Missing tasks input) :
    idsAt tasks (targetIndexes tasks input) = unique input.explicitTaskIds := by
  unfold idsAt targetIndexes
  rw [List.filterMap_filterMap]
  refine (List.filterMap_congr fun id hid => ?_).trans List.filterMap_some
  cases hfound : tasks.findIdx? (fun task => task.id = id) with
  | none =>
    refine absurd ⟨id, mem_unique.mp hid, fun task htask => ?_⟩ hpresent
    simpa using List.findIdx?_eq_none_iff.mp hfound task htask
  | some i =>
    obtain ⟨task, htask, rfl⟩ := findIdx?_id hfound
    simp [htask]

theorem sameProject_of_frame {canonicalProject : String → String}
    (h : tasks'.map frame = tasks.map frame) :
    SameProject canonicalProject tasks' input ↔ SameProject canonicalProject tasks input := by
  have hprojects : ∀ indexes : List Nat,
      (indexes.filterMap (tasks'[·]?)).map (fun task => canonicalProject task.project) =
        (indexes.filterMap (tasks[·]?)).map (fun task => canonicalProject task.project) := by
    intro indexes
    rw [List.map_filterMap, List.map_filterMap]
    congr 1
    funext i
    have hi := congrArg (fun list => list[i]?) h
    simp only [List.getElem?_map] at hi
    have hproject := congrArg (Option.map (fun fields => canonicalProject fields.2.1)) hi
    simpa [Option.map_map, Function.comp_def, frame] using hproject
  unfold SameProject
  rw [targetIndexes_of_frame h, hprojects]

theorem findIdx?_pointwise {α β : Type} {xs : List α} {ys : List β} {p : α → Bool} {q : β → Bool}
    (hlength : ys.length = xs.length)
    (h : ∀ (i : Nat) x y, xs[i]? = some x → ys[i]? = some y → q y = p x) :
    ys.findIdx? q = xs.findIdx? p := by
  have hmap : ys.map q = xs.map p := by
    apply List.ext_getElem
    · rw [List.length_map, List.length_map, hlength]
    · intro i hi hi'
      rw [List.getElem_map, List.getElem_map]
      rw [List.length_map] at hi hi'
      exact h i _ _ (List.getElem?_eq_getElem hi') (List.getElem?_eq_getElem hi)
  have hxs : xs.findIdx? p = (xs.map p).findIdx? id := by
    rw [List.findIdx?_map]
    rfl
  have hys : ys.findIdx? q = (ys.map q).findIdx? id := by
    rw [List.findIdx?_map]
    rfl
  rw [hxs, hys, hmap]

/-- A live key on the targets and on no other task is a target set that a retry keeps. -/
theorem fits_of_keyed_iff (hids : (tasks.map LinkedBoards.BoardTask.id).Nodup)
    (hpresent : ¬ Missing tasks input)
    (hplaceholder : ∀ task, placeholderForKey tasks input = some task →
      task.id ∈ unique input.explicitTaskIds)
    (hkeyed : ∀ task ∈ tasks, keyed input.identity task = true ↔ task.id ∈ input.explicitTaskIds) :
    Fits tasks input := by
  refine ⟨hplaceholder, Or.inr ⟨?_, fun task htask => ?_⟩⟩
  · have hnodup : ((tasks.filter (keyed input.identity)).map LinkedBoards.BoardTask.id).Nodup :=
      hids.sublist (List.filter_sublist.map _)
    have hperm : ((tasks.filter (keyed input.identity)).map LinkedBoards.BoardTask.id).Perm
        (unique input.explicitTaskIds) := by
      rw [List.perm_ext_iff_of_nodup hnodup (nodup_unique _)]
      intro id
      rw [mem_unique, List.mem_map]
      constructor
      · rintro ⟨task, htask, rfl⟩
        obtain ⟨hmem, hkey⟩ := List.mem_filter.mp htask
        exact (hkeyed task hmem).mp hkey
      · intro hid
        have hexists : ∃ task ∈ tasks, task.id = id := by
          by_contra hnone
          exact hpresent ⟨id, hid, fun task htask hsame => hnone ⟨task, htask, hsame⟩⟩
        obtain ⟨task, htask, rfl⟩ := hexists
        exact ⟨task, List.mem_filter.mpr ⟨htask, (hkeyed task htask).mpr hid⟩, rfl⟩
    rw [← hperm.length_eq, List.length_map]
  · obtain ⟨hmem, hkey⟩ := List.mem_filter.mp htask
    exact mem_unique.mpr ((hkeyed task hmem).mp hkey)

end

section

variable {canonicalProject : String → String} {existing : List LocalTask}
  {input : MembershipInput} {now : Instant} {first : MembershipResult}

theorem find?_findIdx? {α : Type} {p : α → Bool} {xs : List α} {x : α} :
    xs.find? p = some x ↔ ∃ k, xs.findIdx? p = some k ∧ xs[k]? = some x := by
  rw [List.find?_eq_bind_findIdx?_getElem?, Option.bind_eq_some_iff]

/-- A call that keeps to targets where the identity is recorded. -/
theorem again_targets (hids : (first.tasks.map LinkedBoards.BoardTask.id).Nodup)
    (htargets : input.explicitTaskIds ≠ []) (hwellformed : input.Wellformed)
    (hundiverted : input.fallbackOrigin.isSome = true → ¬ Diverted first.tasks input)
    (hpresent : ¬ Missing first.tasks input) (hfits : Fits first.tasks input)
    (hproject : SameProject canonicalProject first.tasks input)
    (hsettled : ∀ now, ∀ i ∈ targetIndexes first.tasks input, ∀ task, first.tasks[i]? = some task →
      upsertLinked task input.identity now = (task, false))
    (htaskIds : first.taskIds = unique input.explicitTaskIds) :
    Again first (ensureTaskMembership canonicalProject first.tasks input) ↔ Readmitted input first := by
  have hverdict : input.verdict (tasksOf first.tasks first.taskIds) =
      input.verdict ((targetIndexes first.tasks input).filterMap (first.tasks[·]?)) := by
    rw [htaskIds, ← idsAt_targetIndexes hpresent, tasksOf_idsAt hids]
  have hcall : ∀ deps result,
      ensureTaskMembership canonicalProject first.tasks input deps = .ok result ↔
        precheck first.tasks input = .ok () ∧
          input.verdict (tasksOf first.tasks first.taskIds) = none ∧
            result = ⟨first.tasks, unique input.explicitTaskIds, [], false⟩ := by
    intro deps result
    rw [ensureTaskMembership_undiverted htargets hundiverted, ensureTargeted_ok,
      joinTargets_present hpresent, joinTasks_again _ (hsettled deps.now), hverdict,
      and_iff_right hfits, and_iff_right hproject]
  constructor
  · intro hagain
    obtain ⟨second, hsecond, -⟩ := hagain ⟨⟨"", none⟩, ""⟩
    obtain ⟨hcheck, hlaunch, -⟩ := (hcall _ _).mp hsecond
    exact ⟨(precheck_ok.mp hcheck).2, hlaunch⟩
  · intro hreadmitted deps
    refine ⟨⟨first.tasks, unique input.explicitTaskIds, [], false⟩, ?_, htaskIds.symm, rfl, rfl⟩
    exact (hcall _ _).mpr
      ⟨precheck_ok.mpr ⟨hwellformed, hreadmitted.related⟩, hreadmitted.launch, rfl⟩

/-- Targets that hold the key before the call hold it afterwards, and no other task does. -/
theorem RecordedAt.keyed_iff_target {recorded : List LocalTask}
    (hids : (existing.map LinkedBoards.BoardTask.id).Nodup)
    (h : RecordedAt input.identity now (targetIndexes existing input) existing recorded)
    (hkeyed : ∀ task ∈ existing,
      keyed input.identity task = true ↔ task.id ∈ input.explicitTaskIds) :
    ∀ task ∈ recorded, keyed input.identity task = true ↔ task.id ∈ input.explicitTaskIds := by
  intro task' htask'
  obtain ⟨i, hi⟩ := List.getElem?_of_mem htask'
  obtain ⟨task, htask, hplace⟩ := h.place hi
  have hmem := List.mem_of_getElem? htask
  rcases hplace with ⟨hin, hrecord⟩ | ⟨-, rfl⟩
  · obtain ⟨held, hheld, htarget⟩ := (mem_targetIndexes hids).mp hin
    obtain rfl := Option.some.inj (htask.symm.trans hheld)
    rw [hrecord.id]
    exact iff_of_true (hrecord.keyed_mono ((hkeyed task hmem).mpr htarget)) htarget
  · exact hkeyed task' hmem

/-- The recorded list does not divert where the first list did not and the key was live. -/
theorem RecordedAt.not_diverted {recorded : List LocalTask}
    (hids : (existing.map LinkedBoards.BoardTask.id).Nodup)
    (hfallback : input.fallbackOrigin.isSome = true)
    (h : RecordedAt input.identity now (targetIndexes existing input) existing recorded)
    (hkeyed : ∀ task ∈ existing,
      keyed input.identity task = true ↔ task.id ∈ input.explicitTaskIds)
    (hundiverted : ¬ Diverted existing input) : ¬ Diverted recorded input := by
  obtain ⟨origin, hfallback⟩ := Option.isSome_iff_exists.mp hfallback
  rintro ⟨held', hheld', hall⟩
  apply hundiverted
  rw [recordedFallback_eq hfallback] at hheld'
  obtain ⟨k, hk, hheldAt⟩ := find?_findIdx?.mp hheld'
  obtain ⟨held, hheld, -⟩ := h.place hheldAt
  have hsame : recorded.findIdx? (fun task =>
        ofOrigin (JsStrings.trim input.project) origin task && carriesKey input.identity task) =
      existing.findIdx? (fun task =>
        ofOrigin (JsStrings.trim input.project) origin task && carriesKey input.identity task) := by
    refine findIdx?_pointwise h.length (fun i task task' htask htask' => ?_)
    rw [h.ofOrigin_eq htask htask']
    congr 1
    obtain ⟨other, hother, hplace⟩ := h.place htask'
    obtain rfl := Option.some.inj (htask.symm.trans hother)
    rcases hplace with ⟨hin, hrecord⟩ | ⟨-, rfl⟩
    · obtain ⟨target, htarget, hid⟩ := (mem_targetIndexes hids).mp hin
      obtain rfl := Option.some.inj (htask.symm.trans htarget)
      have hcarries := carriesKey_of_keyed ((hkeyed task (List.mem_of_getElem? htask)).mpr hid)
      rw [hcarries, hrecord.carriesKey_mono hcarries]
    · rfl
  have hidOf : ∀ {i : Nat} {task task' : LocalTask}, existing[i]? = some task →
      recorded[i]? = some task' → task'.id = task.id := by
    intro i task task' htask htask'
    obtain ⟨other, hother, hframe⟩ := getElem?_of_frame h.frame htask
    obtain rfl := Option.some.inj (htask'.symm.trans hother)
    exact congrArg Prod.fst hframe
  refine ⟨held, ?_, fun task htask hkey => ?_⟩
  · rw [recordedFallback_eq hfallback]
    exact find?_findIdx?.mpr ⟨k, hsame ▸ hk, hheld⟩
  · obtain ⟨i, hi⟩ := List.getElem?_of_mem htask
    obtain ⟨task', htask', hframe⟩ := getElem?_of_frame h.frame hi
    have htarget := (hkeyed task htask).mp hkey
    rw [← hidOf hi htask'] at htarget
    have hkey' := (h.keyed_iff_target hids hkeyed task' (List.mem_of_getElem? htask')).mpr htarget
    rw [← hidOf hi htask', hall task' (List.mem_of_getElem? htask') hkey', hidOf hheld hheldAt]

theorem RecordedAt.id_eq {indexes : List Nat} {recorded : List LocalTask}
    (h : RecordedAt input.identity now indexes existing recorded) {i : Nat} {task task' : LocalTask}
    (htask : existing[i]? = some task) (htask' : recorded[i]? = some task') : task'.id = task.id := by
  obtain ⟨other, hother, hframe⟩ := getElem?_of_frame h.frame htask
  obtain rfl := Option.some.inj (htask'.symm.trans hother)
  exact congrArg Prod.fst hframe

/-- Where no key was live and no task was recorded under the fallback origin, the recorded list
diverts exactly to a target that gained the key. -/
theorem RecordedAt.diverted_iff {origin : OriginKind × String} {recorded : List LocalTask}
    (hids : (existing.map LinkedBoards.BoardTask.id).Nodup)
    (hfallback : input.fallbackOrigin = some origin)
    (hfree : ∀ task ∈ existing, keyed input.identity task = false)
    (hnone : recordedFallback existing input = none)
    (h : RecordedAt input.identity now (targetIndexes existing input) existing recorded) :
    Diverted recorded input ↔ ∃ task, Diverts existing input now origin task := by
  rw [recordedFallback_eq hfallback, List.find?_eq_none] at hnone
  have hsame : recorded.findIdx? (fun task =>
        ofOrigin (JsStrings.trim input.project) origin task && carriesKey input.identity task) =
      existing.findIdx? (fun held => decide (held.id ∈ input.explicitTaskIds) &&
        (ofOrigin (JsStrings.trim input.project) origin held &&
          carriesAfter input.identity now held)) := by
    refine findIdx?_pointwise h.length (fun i task task' htask htask' => ?_)
    obtain ⟨other, hother, hplace⟩ := h.place htask'
    obtain rfl := Option.some.inj (htask.symm.trans hother)
    rcases hplace with ⟨hin, hrecord⟩ | ⟨hout, rfl⟩
    · obtain ⟨target, htarget, hid⟩ := (mem_targetIndexes hids).mp hin
      obtain rfl := Option.some.inj (htask.symm.trans htarget)
      rw [h.ofOrigin_eq htask htask', hrecord.carriesKey_eq]
      simp [hid]
    · have hid : task'.id ∉ input.explicitTaskIds :=
        fun hid => hout ((mem_targetIndexes hids).mpr ⟨task', htask, hid⟩)
      have hnot := hnone task' (List.mem_of_getElem? htask)
      rw [Bool.not_eq_true] at hnot
      rw [hnot]
      simp [hid]
  constructor
  · rintro ⟨held', hheld', hall⟩
    rw [recordedFallback_eq hfallback] at hheld'
    obtain ⟨k, hk, hheldAt⟩ := find?_findIdx?.mp hheld'
    obtain ⟨held, hheld, -⟩ := h.place hheldAt
    refine ⟨held, find?_findIdx?.mpr ⟨k, hsame ▸ hk, hheld⟩, fun other hother hid hkey => ?_⟩
    obtain ⟨j, hj⟩ := List.getElem?_of_mem hother
    obtain ⟨other', hother', hrecord⟩ :=
      h.recorded j other ((mem_targetIndexes hids).mpr ⟨other, hj, hid⟩) hj
    rw [← hrecord.id, hall other' (List.mem_of_getElem? hother') (hrecord.keyed_eq.trans hkey),
      h.id_eq hheld hheldAt]
  · rintro ⟨held, hheld, hall⟩
    obtain ⟨k, hk, hheldAt⟩ := find?_findIdx?.mp hheld
    obtain ⟨held', hheldAt', -⟩ := getElem?_of_frame h.frame hheldAt
    refine ⟨held', ?_, fun other' hother' hkey => ?_⟩
    · rw [recordedFallback_eq hfallback]
      exact find?_findIdx?.mpr ⟨k, hsame.trans hk, hheldAt'⟩
    · obtain ⟨j, hj, other, hother, -, hrecord⟩ := h.keyed_place hfree hother' hkey
      obtain ⟨target, htarget, hid⟩ := (mem_targetIndexes hids).mp hj
      obtain rfl := Option.some.inj (hother.symm.trans htarget)
      rw [hrecord.id, hall other (List.mem_of_getElem? hother) hid (hrecord.keyed_eq.symm.trans hkey),
        h.id_eq hheldAt hheldAt']

/-- A fallback origin that a target diverts to leads back to the targets only where they are its
first task alone. -/
theorem again_iff_of_diverts {origin : OriginKind × String} {task : LocalTask}
    (hids : (existing.map LinkedBoards.BoardTask.id).Nodup)
    (htargets : input.explicitTaskIds ≠ []) (hwellformed : input.Wellformed)
    (hfallback : input.fallbackOrigin = some origin)
    (h : RecordedAt input.identity now (targetIndexes existing input) existing first.tasks)
    (htaskIds : first.taskIds = unique input.explicitTaskIds)
    (hdiverts : Diverts existing input now origin task) (hdiverted : Diverted first.tasks input) :
    Again first (ensureTaskMembership canonicalProject first.tasks input) ↔
      (JsStrings.trim input.project ≠ "" ∧ JsStrings.trim origin.2 ≠ "" ∧
        ∃ held, existing.find? (ofOrigin (JsStrings.trim input.project) origin) = some held ∧
          unique input.explicitTaskIds = [held.id]) ∧ Readmitted input first := by
  have hids' : (first.tasks.map LinkedBoards.BoardTask.id).Nodup := by
    rw [ids_of_frame h.frame]
    exact hids
  have hboth := List.find?_some hdiverts.1
  rw [Bool.and_eq_true_iff, Bool.and_eq_true_iff] at hboth
  have hsome : ∃ held, existing.find? (ofOrigin (JsStrings.trim input.project) origin) = some held := by
    rw [← Option.isSome_iff_exists, List.find?_isSome]
    exact ⟨task, List.mem_of_find?_eq_some hdiverts.1, hboth.2.1⟩
  obtain ⟨held, hheld⟩ := hsome
  obtain ⟨k, hk, hheldAt⟩ := find?_findIdx?.mp hheld
  obtain ⟨held', hheldAt', hframe⟩ := getElem?_of_frame h.frame hheldAt
  have hidAt : idsAt first.tasks [k] = [held.id] := by
    simp [idsAt, hheldAt', h.id_eq hheldAt hheldAt']
  have hresolves : Resolves first.tasks (input.fallingBack origin) [k] :=
    .origin ((h.findIdx?_ofOrigin _ _).trans hk)
  rw [again_congr (fun deps result =>
    ensureTaskMembership_falls_back htargets hfallback hwellformed (Or.inl hdiverted))]
  by_cases hcond : JsStrings.trim input.project ≠ "" ∧ JsStrings.trim origin.2 ≠ "" ∧
      ∃ held, existing.find? (ofOrigin (JsStrings.trim input.project) origin) = some held ∧
        unique input.explicitTaskIds = [held.id]
  · rw [and_iff_right hcond, ← @readmitted_fallingBack input first origin]
    obtain ⟨hproject, hkey, found, hfound, hunique⟩ := hcond
    obtain rfl := Option.some.inj (hheld.symm.trans hfound)
    have hmem : k ∈ targetIndexes existing input := by
      refine (mem_targetIndexes hids).mpr ⟨held, hheldAt, ?_⟩
      rw [← mem_unique, hunique]
      exact List.mem_singleton_self _
    refine again_of_resolves hids' hresolves (fun now i hi => ?_) ?_
      ⟨fun hblank => hproject hblank.1, hkey, hwellformed.2.2⟩
    · rw [List.mem_singleton.mp hi]
      exact h.settled hwellformed.2.2 now k hmem
    · rw [htaskIds, hidAt, hunique]
  · refine iff_of_false (fun hagain => hcond ?_) (fun h => hcond h.1)
    obtain ⟨second, hsecond, hsame, -⟩ := hagain ⟨⟨"", none⟩, ""⟩
    obtain ⟨hcheck, hjoined⟩ := (ensureUntargeted_of_resolved (resolved_some.mpr hresolves)).mp hsecond
    obtain ⟨hproject, hkey, -⟩ := (precheck_ok.mp hcheck).1
    obtain ⟨htasks, -⟩ := joinTasks_ok hresolves.nodup hjoined
    refine ⟨fun hblank => hproject ⟨hblank, rfl⟩, hkey, held, hheld, ?_⟩
    rw [← htaskIds, ← hsame, htasks, hidAt]

/-- The live keys of the recorded list, where no key was live before. -/
theorem RecordedAt.keyed_iff_after {recorded : List LocalTask}
    (hids : (existing.map LinkedBoards.BoardTask.id).Nodup)
    (hfree : ∀ task ∈ existing, keyed input.identity task = false)
    (h : RecordedAt input.identity now (targetIndexes existing input) existing recorded) {i : Nat}
    {task task' : LocalTask} (htask : existing[i]? = some task) (htask' : recorded[i]? = some task') :
    keyed input.identity task' = true ↔
      task.id ∈ input.explicitTaskIds ∧ keyedAfter input.identity now task = true := by
  obtain ⟨other, hother, hplace⟩ := h.place htask'
  obtain rfl := Option.some.inj (htask.symm.trans hother)
  rcases hplace with ⟨hin, hrecord⟩ | ⟨hout, rfl⟩
  · obtain ⟨target, htarget, hid⟩ := (mem_targetIndexes hids).mp hin
    obtain rfl := Option.some.inj (htask.symm.trans htarget)
    rw [hrecord.keyed_eq]
    exact (and_iff_right hid).symm
  · have hid : task'.id ∉ input.explicitTaskIds :=
      fun hid => hout ((mem_targetIndexes hids).mpr ⟨task', htask, hid⟩)
    rw [hfree task' (List.mem_of_getElem? htask)]
    simp [hid]

/-- Without a diversion the key leads back to the targets where all of them gained it or none. -/
theorem again_iff_of_undiverted (hids : (existing.map LinkedBoards.BoardTask.id).Nodup)
    (htargets : input.explicitTaskIds ≠ []) (hwellformed : input.Wellformed)
    (hfree : ∀ task ∈ existing, keyed input.identity task = false)
    (hpresent : ¬ Missing existing input) (hfits : Fits existing input)
    (hproject : SameProject canonicalProject existing input)
    (h : RecordedAt input.identity now (targetIndexes existing input) existing first.tasks)
    (htaskIds : first.taskIds = unique input.explicitTaskIds)
    (hundiverted : input.fallbackOrigin.isSome = true → ¬ Diverted first.tasks input) :
    Again first (ensureTaskMembership canonicalProject first.tasks input) ↔
      ((∀ task ∈ existing, task.id ∈ input.explicitTaskIds →
          keyedAfter input.identity now task = false) ∨
        ∀ task ∈ existing, task.id ∈ input.explicitTaskIds →
          keyedAfter input.identity now task = true) ∧ Readmitted input first := by
  have hids' : (first.tasks.map LinkedBoards.BoardTask.id).Nodup := by
    rw [ids_of_frame h.frame]
    exact hids
  have hpresent' : ¬ Missing first.tasks input := fun hmissing =>
    hpresent ((missing_of_frame h.frame).mp hmissing)
  have hkept : Fits first.tasks input →
      (Again first (ensureTaskMembership canonicalProject first.tasks input) ↔
        Readmitted input first) := by
    intro hfits'
    refine again_targets hids' htargets hwellformed hundiverted hpresent' hfits'
      (sameProject_of_frame h.frame |>.mpr hproject) ?_ htaskIds
    rw [targetIndexes_of_frame h.frame]
    exact fun now => h.settled hwellformed.2.2 now
  have hback : ∀ task' ∈ first.tasks, ∃ (i : Nat) (task : LocalTask), existing[i]? = some task ∧
      first.tasks[i]? = some task' := by
    intro task' htask'
    obtain ⟨i, hi⟩ := List.getElem?_of_mem htask'
    obtain ⟨task, htask, -⟩ := h.place hi
    exact ⟨i, task, htask, hi⟩
  by_cases hnone : ∀ task ∈ existing, task.id ∈ input.explicitTaskIds →
      keyedAfter input.identity now task = false
  · rw [and_iff_right (Or.inl hnone)]
    refine hkept (hfits.of_frame h.frame (fun task' htask' => ?_))
    obtain ⟨i, task, htask, hi⟩ := hback task' htask'
    by_contra hkey
    obtain ⟨hid, hafter⟩ :=
      (h.keyed_iff_after hids hfree htask hi).mp (Bool.eq_true_of_not_eq_false hkey)
    rw [hnone task (List.mem_of_getElem? htask) hid] at hafter
    cases hafter
  · rw [or_iff_right hnone]
    by_cases hall : ∀ task ∈ existing, task.id ∈ input.explicitTaskIds →
        keyedAfter input.identity now task = true
    · rw [and_iff_right hall]
      refine hkept (fits_of_keyed_iff hids' hpresent' ?_ (fun task' htask' => ?_))
      · exact (hfits.placeholder_of_frame h.frame)
      · obtain ⟨i, task, htask, hi⟩ := hback task' htask'
        rw [h.keyed_iff_after hids hfree htask hi, h.id_eq htask hi]
        exact and_iff_left_of_imp (hall task (List.mem_of_getElem? htask))
    · -- a target has the key live and another has not: the replay names another target set
      refine iff_of_false (fun hagain => hall ?_) (fun h => hall h.1)
      obtain ⟨second, hsecond, -⟩ := hagain ⟨⟨"", none⟩, ""⟩
      obtain ⟨-, htargeted⟩ := (ensureTaskMembership_undiverted htargets hundiverted).mp hsecond
      have hlive : ∃ task' ∈ first.tasks, keyed input.identity task' = true := by
        by_contra hdead
        refine hnone (fun task htask hid => ?_)
        by_contra hafter
        obtain ⟨i, hi⟩ := List.getElem?_of_mem htask
        obtain ⟨task', htask', -⟩ := getElem?_of_frame h.frame hi
        exact hdead ⟨task', List.mem_of_getElem? htask', (h.keyed_iff_after hids hfree hi htask').mpr
          ⟨hid, Bool.eq_true_of_not_eq_false hafter⟩⟩
      obtain ⟨-, -, hkeyed⟩ := taskIds_of_keyed hids' hlive htargeted
      intro task htask hid
      obtain ⟨i, hi⟩ := List.getElem?_of_mem htask
      obtain ⟨task', htask', -⟩ := getElem?_of_frame h.frame hi
      have hid' : task'.id ∈ input.explicitTaskIds := by rwa [h.id_eq hi htask']
      exact ((h.keyed_iff_after hids hfree hi htask').mp
        ((hkeyed task' (List.mem_of_getElem? htask')).mpr hid')).2

/-- **Targets that are all there converge exactly when** the key that was recorded leads back to
them. -/
theorem targets_again_iff (hids : (existing.map LinkedBoards.BoardTask.id).Nodup)
    (htargets : input.explicitTaskIds ≠ []) (hwellformed : input.Wellformed)
    (hundiverted : input.fallbackOrigin.isSome = true → ¬ Diverted existing input)
    (hpresent : ¬ Missing existing input) (hfits : Fits existing input)
    (hproject : SameProject canonicalProject existing input)
    (h : RecordedAt input.identity now (targetIndexes existing input) existing first.tasks)
    (htaskIds : first.taskIds = unique input.explicitTaskIds) :
    Again first (ensureTaskMembership canonicalProject first.tasks input) ↔
      TargetsSettle existing input now ∧ Readmitted input first := by
  have hids' : (first.tasks.map LinkedBoards.BoardTask.id).Nodup := by
    rw [ids_of_frame h.frame]
    exact hids
  have hpresent' : ¬ Missing first.tasks input := fun hmissing =>
    hpresent ((missing_of_frame h.frame).mp hmissing)
  have hproject' := (@sameProject_of_frame _ _ _ canonicalProject h.frame).mpr hproject
  have hsettled : ∀ now, ∀ i ∈ targetIndexes first.tasks input, ∀ task,
      first.tasks[i]? = some task → upsertLinked task input.identity now = (task, false) := by
    rw [targetIndexes_of_frame h.frame]
    exact fun now => h.settled hwellformed.2.2 now
  by_cases hlive : ∃ task ∈ existing, keyed input.identity task = true
  · have hkeyed := (hfits.keyed_iff hids hlive).2
    have hsettles : TargetsSettle existing input now := Or.inl hlive
    rw [and_iff_right hsettles]
    exact again_targets hids' htargets hwellformed
      (fun hfallback => h.not_diverted hids hfallback hkeyed (hundiverted hfallback)) hpresent'
      (fits_of_keyed_iff hids' hpresent' (hfits.placeholder_of_frame h.frame) (h.keyed_iff_target hids hkeyed))
      hproject' hsettled htaskIds
  · have hfree : ∀ task ∈ existing, keyed input.identity task = false := by
      intro task htask
      by_contra hkey
      exact hlive ⟨task, htask, Bool.eq_true_of_not_eq_false hkey⟩
    have hunrecorded : input.fallbackOrigin.isSome = true → recordedFallback existing input = none := by
      intro hfallback
      by_contra hsome
      obtain ⟨held, hheld⟩ := Option.ne_none_iff_exists'.mp hsome
      refine hundiverted hfallback ⟨held, hheld, fun task htask hkey => ?_⟩
      exact absurd ⟨task, htask, hkey⟩ hlive
    by_cases hdiverts : ∃ origin task, input.fallbackOrigin = some origin ∧
        Diverts existing input now origin task
    · obtain ⟨origin, task, hfallback, hdiverts⟩ := hdiverts
      have hnone := hunrecorded (by rw [hfallback]; rfl)
      have hdiverted := (h.diverted_iff hids hfallback hfree hnone).mpr ⟨task, hdiverts⟩
      rw [again_iff_of_diverts hids htargets hwellformed hfallback h htaskIds hdiverts hdiverted]
      refine and_congr_left' ?_
      unfold TargetsSettle
      rw [or_iff_right hlive]
      constructor
      · exact fun hcond => Or.inl ⟨origin, task, hfallback, hdiverts, hcond⟩
      · rintro (⟨origin', -, hfallback', -, hcond⟩ | ⟨hnot, -⟩)
        · obtain rfl := Option.some.inj (hfallback.symm.trans hfallback')
          exact hcond
        · exact absurd hdiverts (hnot origin task hfallback)
    · have hundiverted' : input.fallbackOrigin.isSome = true → ¬ Diverted first.tasks input := by
        intro hfallback hdiverted
        obtain ⟨origin, horigin⟩ := Option.isSome_iff_exists.mp hfallback
        obtain ⟨task, htask⟩ :=
          (h.diverted_iff hids horigin hfree (hunrecorded hfallback)).mp hdiverted
        exact hdiverts ⟨origin, task, horigin, htask⟩
      rw [again_iff_of_undiverted hids htargets hwellformed hfree hpresent hfits hproject h htaskIds
        hundiverted']
      refine and_congr_left' ?_
      unfold TargetsSettle
      rw [or_iff_right hlive]
      constructor
      · intro hcond
        refine Or.inr ⟨fun origin task hfallback hdiverts' => ?_, hcond⟩
        exact hdiverts ⟨origin, task, hfallback, hdiverts'⟩
      · rintro (⟨origin, task, hfallback, hdiverts', -⟩ | ⟨-, hcond⟩)
        · exact absurd ⟨origin, task, hfallback, hdiverts'⟩ hdiverts
        · exact hcond

end

/-! ### Replays -/

section

variable {canonicalProject : String → String} {existing : List LocalTask}
  {input : MembershipInput} {deps : MembershipDeps} {first : MembershipResult} {now : Instant}
  {origin : OriginKind × String}

theorem settles_of_untargeted (h : input.explicitTaskIds = []) :
    Settles existing input now ↔ JoinsAlike existing input := by
  unfold Settles
  rw [if_pos h]

theorem all_keyed_iff {id : String} :
    (existing.filter (keyed input.identity)).all (fun task => task.id = id) = true ↔
      ∀ task ∈ existing, keyed input.identity task = true → task.id = id := by
  simp only [List.all_eq_true, List.mem_filter, decide_eq_true_eq, and_imp]

theorem settles_of_diverted {held : LocalTask} (htargets : input.explicitTaskIds ≠ [])
    (hfallback : input.fallbackOrigin = some origin)
    (hheld : recordedFallback existing input = some held)
    (hkeyed : ∀ task ∈ existing, keyed input.identity task = true → task.id = held.id) :
    Settles existing input now ↔ RecordedFallbackSettles existing input now origin held := by
  unfold Settles
  rw [if_neg htargets, hfallback, hheld]
  dsimp only
  rw [if_pos (all_keyed_iff.mpr hkeyed)]

theorem all_present_iff :
    input.explicitTaskIds.all (fun id => existing.any (fun task => task.id = id)) = true ↔
      ¬ Missing existing input := by
  simp [Missing]

theorem settles_of_missing (htargets : input.explicitTaskIds ≠ [])
    (hfallback : input.fallbackOrigin = some origin)
    (hnone : recordedFallback existing input = none) (hmissing : Missing existing input) :
    Settles existing input now ↔ FallbackSettles existing input now origin := by
  unfold Settles
  rw [if_neg htargets, hfallback, hnone]
  dsimp only
  rw [if_neg (fun hall => all_present_iff.mp hall hmissing)]

theorem settles_of_present (htargets : input.explicitTaskIds ≠ [])
    (hundiverted : input.fallbackOrigin.isSome = true → ¬ Diverted existing input)
    (hpresent : ¬ Missing existing input) :
    Settles existing input now ↔ TargetsSettle existing input now := by
  unfold Settles
  rw [if_neg htargets]
  split
  · rename_i origin held hfallback hheld
    rw [if_neg]
    intro hall
    exact hundiverted (by rw [hfallback]; rfl) ⟨held, hheld, all_keyed_iff.mp hall⟩
  · rw [if_pos (all_present_iff.mpr hpresent)]
  · rfl

/-- What a call that keeps to its targets recorded. -/
theorem joinTasks_targets {now : Instant}
    (h : joinTasks existing input now (targetIndexes existing input) (unique input.explicitTaskIds) =
      .ok first) :
    first.taskIds = unique input.explicitTaskIds ∧
      RecordedAt input.identity now (targetIndexes existing input) existing first.tasks := by
  obtain ⟨hids, -, hrecorded⟩ := joinTasks_ok (nodup_targetIndexes existing input) h
  exact ⟨hids, hrecorded⟩

/-- **A replay converges exactly when** the first list settles it and the admission checks accept
what was recorded. -/
theorem replay_converges_iff (hids : (existing.map LinkedBoards.BoardTask.id).Nodup)
    (hfresh : deps.id ∉ existing.map LinkedBoards.BoardTask.id)
    (hfreshTarget : deps.id ∉ input.explicitTaskIds)
    (h : ensureTaskMembership canonicalProject existing input deps = .ok first) :
    Again first (ensureTaskMembership canonicalProject first.tasks input) ↔
      Settles existing input deps.now ∧ Readmitted input first := by
  by_cases htargets : input.explicitTaskIds = []
  · have hcall : ∀ tasks deps, ensureTaskMembership canonicalProject tasks input deps =
        ensureUntargeted tasks input deps :=
      fun tasks deps => ensureTaskMembership_untargeted canonicalProject htargets
    rw [hcall] at h
    rw [again_congr (fun deps result => by rw [hcall]), settles_of_untargeted htargets]
    exact untargeted_again_iff hids hfresh h
  · by_cases hdiverted : input.fallbackOrigin.isSome = true ∧ Diverted existing input
    · obtain ⟨hfallback, held, hheld, hkeyed⟩ := hdiverted
      obtain ⟨origin, hfallback⟩ := Option.isSome_iff_exists.mp hfallback
      obtain ⟨hcheck, hcall⟩ :=
        (ensureTaskMembership_diverted htargets hfallback ⟨held, hheld, hkeyed⟩).mp h
      rw [settles_of_diverted htargets hfallback hheld hkeyed]
      exact recordedFallback_again_iff hids hfresh htargets hfallback (precheck_ok.mp hcheck).1 hheld
        hkeyed hcall
    · have hundiverted : input.fallbackOrigin.isSome = true → ¬ Diverted existing input :=
        fun hfallback hdiverted' => hdiverted ⟨hfallback, hdiverted'⟩
      obtain ⟨hcheck, htargeted⟩ := (ensureTaskMembership_undiverted htargets hundiverted).mp h
      obtain ⟨hfits, hjoined⟩ := ensureTargeted_ok.mp htargeted
      have hwellformed := (precheck_ok.mp hcheck).1
      by_cases hmissing : Missing existing input
      · cases hfallback : input.fallbackOrigin with
        | none => exact absurd hjoined (joinTargets_missing_ne_ok hmissing hfallback)
        | some origin =>
          have hfree : ∀ task ∈ existing, keyed input.identity task = false := by
            intro task htask
            by_contra hkey
            exact (hfits.keyed_iff hids ⟨task, htask, Bool.eq_true_of_not_eq_false hkey⟩).1 hmissing
          have hnone : recordedFallback existing input = none := by
            by_contra hsome
            obtain ⟨held, hheld⟩ := Option.ne_none_iff_exists'.mp hsome
            refine hundiverted (by rw [hfallback]; rfl) ⟨held, hheld, fun task htask hkey => ?_⟩
            rw [hfree task htask] at hkey
            cases hkey
          rw [joinTargets_missing hmissing hfallback] at hjoined
          rw [settles_of_missing htargets hfallback hnone hmissing]
          rcases (ensureUntargeted_ok hjoined).2 with ⟨indexes, hresolves, -, hrecorded⟩ | ⟨hnew, hfirst⟩
          · exact fallback_again_iff_of_recorded hids hfresh htargets hfallback hwellformed hmissing
              hfits hfree hjoined hresolves hrecorded
          · exact fallback_again_iff_of_created hids hfresh hfreshTarget htargets hfallback hwellformed
              hmissing hfits hfree hjoined hnew (by rw [hfirst])
      · obtain ⟨hproject, hjoined⟩ := (joinTargets_present hmissing).mp hjoined
        obtain ⟨htaskIds, hrecorded⟩ := joinTasks_targets hjoined
        rw [settles_of_present htargets hundiverted hmissing]
        exact targets_again_iff hids htargets hwellformed hundiverted hmissing hfits hproject hrecorded
          htaskIds

/-- For the tasks of a join, the checks of the recorded list are those of its places. -/
theorem readmitted_joined_iff {now : Instant} {indexes : List Nat}
    (hids : (existing.map LinkedBoards.BoardTask.id).Nodup) (hnodup : indexes.Nodup)
    (h : joinTasks existing input now indexes (idsAt existing indexes) = .ok first) :
    Readmitted input first ↔ AcceptsAt existing input now indexes := by
  obtain ⟨htaskIds, -, hrecorded⟩ := joinTasks_ok hnodup h
  have htasks : first.tasks = recordAt existing input.identity now indexes := by
    unfold joinTasks at h
    split at h
    · cases h
    · obtain ⟨state, hrun, rfl⟩ := Refusals.map_eq_ok.mp h
      rw [recordAt, hrun]
  have hids' : (first.tasks.map LinkedBoards.BoardTask.id).Nodup := by
    rw [ids_of_frame hrecorded.frame]
    exact hids
  have hmembers : tasksOf first.tasks first.taskIds = indexes.filterMap (first.tasks[·]?) := by
    rw [htaskIds, ← idsAt_of_frame hrecorded.frame, tasksOf_idsAt hids']
  unfold AcceptsAt Accepts
  rw [← htasks, ← hmembers]
  exact ⟨fun hagain => ⟨hagain.related, hagain.launch⟩, fun haccepts => ⟨haccepts.1, haccepts.2⟩⟩

theorem readmitted_untargeted_iff (hids : (existing.map LinkedBoards.BoardTask.id).Nodup)
    (hfresh : deps.id ∉ existing.map LinkedBoards.BoardTask.id)
    (h : ensureUntargeted existing input deps = .ok first) :
    Readmitted input first ↔ AcceptsUntargeted existing input deps := by
  obtain ⟨_, -, hrest⟩ := Refusals.bind_eq_ok.mp h
  unfold AcceptsUntargeted
  cases hresolved : resolved existing input with
  | some indexes =>
    rw [hresolved] at hrest
    exact readmitted_joined_iff hids (resolved_some.mp hresolved).nodup hrest
  | none =>
    rw [hresolved] at hrest
    obtain rfl := Except.ok.inj hrest
    have hmembers : tasksOf (existing ++ [placeholder input deps]) [deps.id] =
        [placeholder input deps] := by
      have hfind : (existing ++ [placeholder input deps]).find? (fun task => task.id = deps.id) =
          some (placeholder input deps) := by
        have hnodup := nodup_ids_append hids
          (show (placeholder input deps).id ∉ existing.map LinkedBoards.BoardTask.id by
            rwa [placeholder_id])
        have hfound := find?_of_getElem? hnodup
          (show (existing ++ [placeholder input deps])[existing.length]? = some _ from
            List.getElem?_concat_length)
        rwa [placeholder_id] at hfound
      rw [tasksOf, List.filterMap_cons, hfind]
      rfl
    constructor
    · intro hagain
      exact ⟨hagain.related, hmembers ▸ hagain.launch⟩
    · intro haccepts
      exact ⟨haccepts.1, hmembers.symm ▸ haccepts.2⟩

/-- The admission checks of the recorded list, said of the first one. -/
theorem readmitted_iff (hids : (existing.map LinkedBoards.BoardTask.id).Nodup)
    (hfresh : deps.id ∉ existing.map LinkedBoards.BoardTask.id)
    (h : ensureTaskMembership canonicalProject existing input deps = .ok first) :
    Readmitted input first ↔ AcceptsRecorded existing input deps := by
  unfold AcceptsRecorded
  by_cases htargets : input.explicitTaskIds = []
  · rw [ensureTaskMembership_untargeted canonicalProject htargets] at h
    rw [if_pos htargets]
    exact readmitted_untargeted_iff hids hfresh h
  rw [if_neg htargets]
  have hfallen : ∀ origin, input.fallbackOrigin = some origin →
      Diverted existing input ∨ Missing existing input →
        ensureUntargeted existing (input.fallingBack origin) deps = .ok first →
          (Readmitted input first ↔ ((∀ origin, input.fallbackOrigin = some origin →
              Diverted existing input ∨ Missing existing input →
                AcceptsUntargeted existing (input.fallingBack origin) deps) ∧
            (input.fallbackOrigin = none ∨ ¬ (Diverted existing input ∨ Missing existing input) →
              AcceptsAt existing input deps.now (targetIndexes existing input)))) := by
    intro origin hfallback hfalls hcall
    have hsame : Readmitted input first ↔ Readmitted (input.fallingBack origin) first :=
      ⟨fun hagain => ⟨hagain.related, hagain.launch⟩, fun hagain => ⟨hagain.related, hagain.launch⟩⟩
    rw [hsame, readmitted_untargeted_iff hids hfresh hcall]
    constructor
    · intro haccepts
      refine ⟨fun origin' hfallback' _ => ?_, fun hkeeps => ?_⟩
      · rw [hfallback] at hfallback'
        obtain rfl := Option.some.inj hfallback'
        exact haccepts
      · rcases hkeeps with hnone | hnot
        · rw [hfallback] at hnone
          cases hnone
        · exact absurd hfalls hnot
    · exact fun hboth => hboth.1 origin hfallback hfalls
  by_cases hdiverted : input.fallbackOrigin.isSome = true ∧ Diverted existing input
  · obtain ⟨hfallback, hdiverted⟩ := hdiverted
    obtain ⟨origin, hfallback⟩ := Option.isSome_iff_exists.mp hfallback
    exact hfallen origin hfallback (Or.inl hdiverted)
      ((ensureTaskMembership_diverted htargets hfallback hdiverted).mp h).2
  · have hundiverted : input.fallbackOrigin.isSome = true → ¬ Diverted existing input :=
      fun hfallback hdiverted' => hdiverted ⟨hfallback, hdiverted'⟩
    obtain ⟨-, htargeted⟩ := (ensureTaskMembership_undiverted htargets hundiverted).mp h
    obtain ⟨-, hjoined⟩ := ensureTargeted_ok.mp htargeted
    by_cases hmissing : Missing existing input
    · cases hfallback : input.fallbackOrigin with
      | none => exact absurd hjoined (joinTargets_missing_ne_ok hmissing hfallback)
      | some origin =>
        rw [joinTargets_missing hmissing hfallback] at hjoined
        rw [← hfallback]
        exact hfallen origin hfallback (Or.inr hmissing) hjoined
    · obtain ⟨-, hjoined⟩ := (joinTargets_present hmissing).mp hjoined
      rw [← idsAt_targetIndexes hmissing] at hjoined
      rw [readmitted_joined_iff hids (nodup_targetIndexes existing input) hjoined]
      constructor
      · intro haccepts
        refine ⟨fun origin hfallback hfalls => ?_, fun _ => haccepts⟩
        rcases hfalls with hdiverted' | hmissing'
        · exact absurd hdiverted' (hundiverted (by rw [hfallback]; rfl))
        · exact absurd hmissing' hmissing
      · intro hboth
        apply hboth.2
        cases hfallback : input.fallbackOrigin with
        | none => exact Or.inl rfl
        | some origin =>
          right
          rintro (hdiverted' | hmissing')
          · exact hundiverted (by rw [hfallback]; rfl) hdiverted'
          · exact hmissing hmissing'

end

/-! ### One task for each origin -/

/-- No two tasks of a project have the same origin kind and key. -/
def OneForEachOrigin (tasks : List LocalTask) : Prop :=
  ∀ (i j : Nat) task other, tasks[i]? = some task → tasks[j]? = some other →
    task.project = other.project → ∀ origin, hasOrigin origin task = true →
      hasOrigin origin other = true → i = j

/-- The task list after a call; a refused call leaves it. -/
def afterCall (canonicalProject : String → String) (tasks : List LocalTask)
    (call : MembershipInput × MembershipDeps) : List LocalTask :=
  match ensureTaskMembership canonicalProject tasks call.1 call.2 with
  | .ok result => result.tasks
  | .error _ => tasks

section

variable {canonicalProject : String → String} {existing tasks tasks' : List LocalTask}
  {input : MembershipInput} {deps : MembershipDeps} {first : MembershipResult}

/-- What a call does to the projects and origins of a list: nothing, or a placeholder whose
origin no task of its project has. -/
def KeepsOrigins (tasks tasks' : List LocalTask) : Prop :=
  tasks'.map frame = tasks.map frame ∨ ∃ made origin, tasks' = tasks ++ [made] ∧
    ofOrigin made.project origin made = true ∧ ∀ task ∈ tasks, ofOrigin made.project origin task = false

theorem ensureUntargeted_origins (h : ensureUntargeted existing input deps = .ok first) :
    KeepsOrigins existing first.tasks := by
  rcases (ensureUntargeted_ok h).2 with ⟨indexes, -, -, hrecorded⟩ | ⟨hnone, rfl⟩
  · exact Or.inl hrecorded.frame
  · have hproject : (placeholder input deps).project = JsStrings.trim input.project :=
      congrArg (fun fields => fields.2.1) (frame_placeholder input deps)
    refine Or.inr ⟨placeholder input deps, input.origin, rfl, ?_, fun task htask => ?_⟩
    · rw [hproject, ofOrigin_placeholder]
      exact decide_eq_true rfl
    · rw [hproject]
      exact List.findIdx?_eq_none_iff.mp (resolved_none.mp hnone).1 task htask

theorem ensureTaskMembership_origins
    (h : ensureTaskMembership canonicalProject existing input deps = .ok first) :
    KeepsOrigins existing first.tasks := by
  by_cases htargets : input.explicitTaskIds = []
  · rw [ensureTaskMembership_untargeted canonicalProject htargets] at h
    exact ensureUntargeted_origins h
  · by_cases hdiverted : input.fallbackOrigin.isSome = true ∧ Diverted existing input
    · obtain ⟨hfallback, hdiverted⟩ := hdiverted
      obtain ⟨origin, hfallback⟩ := Option.isSome_iff_exists.mp hfallback
      exact ensureUntargeted_origins
        ((ensureTaskMembership_diverted htargets hfallback hdiverted).mp h).2
    · have hundiverted : input.fallbackOrigin.isSome = true → ¬ Diverted existing input :=
        fun hfallback hdiverted' => hdiverted ⟨hfallback, hdiverted'⟩
      obtain ⟨-, htargeted⟩ := (ensureTaskMembership_undiverted htargets hundiverted).mp h
      obtain ⟨-, hjoined⟩ := ensureTargeted_ok.mp htargeted
      by_cases hmissing : Missing existing input
      · cases hfallback : input.fallbackOrigin with
        | none => exact absurd hjoined (joinTargets_missing_ne_ok hmissing hfallback)
        | some origin =>
          rw [joinTargets_missing hmissing hfallback] at hjoined
          exact ensureUntargeted_origins hjoined
      · exact Or.inl (joinTasks_targets ((joinTargets_present hmissing).mp hjoined).2).2.frame

theorem KeepsOrigins.oneForEachOrigin (h : KeepsOrigins tasks tasks') (hone : OneForEachOrigin tasks) :
    OneForEachOrigin tasks' := by
  rcases h with hframe | ⟨made, origin, rfl, hmade, hothers⟩
  · intro i j task' other' htask' hother' hproject origin horigin horigin'
    obtain ⟨task, htask, hsame⟩ := getElem?_of_frame hframe.symm htask'
    obtain ⟨other, hother, hsame'⟩ := getElem?_of_frame hframe.symm hother'
    simp only [frame, Prod.mk.injEq] at hsame hsame'
    refine hone i j task other htask hother ?_ origin ?_ ?_
    · rw [hsame.2.1, hsame'.2.1, hproject]
    · rw [hasOrigin, hsame.2.2]
      exact horigin
    · rw [hasOrigin, hsame'.2.2]
      exact horigin'
  · have hold : ∀ {i : Nat} {task : LocalTask}, (tasks ++ [made])[i]? = some task →
        (i = tasks.length ∧ task = made) ∨ tasks[i]? = some task := by
      intro i task htask
      by_cases hlt : i < tasks.length
      · right
        rwa [List.getElem?_append_left hlt] at htask
      · left
        rw [List.getElem?_append_right (by omega), List.getElem?_singleton] at htask
        split at htask
        · rename_i hzero
          exact ⟨by omega, (Option.some.inj htask).symm⟩
        · cases htask
    have hfresh : ∀ {task : LocalTask} {other : OriginKind × String}, task ∈ tasks →
        task.project = made.project → hasOrigin other task = true → hasOrigin other made = true →
          False := by
      intro task other htask hproject horigin hmadeOther
      obtain ⟨-, hmadeOrigin⟩ := Bool.and_eq_true_iff.mp hmade
      have hsame : other = origin := by
        unfold hasOrigin at hmadeOther hmadeOrigin
        cases hheld : made.rest.origin with
        | none => rw [hheld] at hmadeOther; cases hmadeOther
        | some held =>
          rw [hheld] at hmadeOther hmadeOrigin
          have hfirst := of_decide_eq_true hmadeOther
          have hsecond := of_decide_eq_true hmadeOrigin
          exact Prod.ext (hfirst.1.symm.trans hsecond.1) (hfirst.2.symm.trans hsecond.2)
      have hnot := hothers task htask
      rw [ofOrigin, hproject, ← hsame, horigin] at hnot
      simp at hnot
    intro i j task other htask hother hproject origin' horigin horigin'
    rcases hold htask with ⟨hi, hnew⟩ | hheld <;> rcases hold hother with ⟨hj, hnewOther⟩ | hheldOther
    · exact hi.trans hj.symm
    · rw [hnew] at horigin hproject
      exact (hfresh (List.mem_of_getElem? hheldOther) hproject.symm horigin' horigin).elim
    · rw [hnewOther] at horigin' hproject
      exact (hfresh (List.mem_of_getElem? hheld) hproject horigin horigin').elim
    · exact hone i j task other hheld hheldOther hproject origin' horigin horigin'

/-- **Over any sequence of calls** a project has at most one task for each origin. -/
theorem oneForEachOrigin_calls (canonicalProject : String → String)
    (calls : List (MembershipInput × MembershipDeps)) (hone : OneForEachOrigin tasks) :
    OneForEachOrigin (calls.foldl (afterCall canonicalProject) tasks) := by
  induction calls generalizing tasks with
  | nil => exact hone
  | cons call rest ih =>
    apply ih
    unfold afterCall
    cases hcall : ensureTaskMembership canonicalProject tasks call.1 call.2 with
    | ok result => exact (ensureTaskMembership_origins hcall).oneForEachOrigin hone
    | error failure => exact hone

end

/-! ### The claim of the module's contract -/

/-- **A replay converges on the same tasks exactly when** the first list settles it and the
admission checks accept what the call records, and no sequence of calls makes a second task of
an origin. -/
theorem membership_converges_iff (canonicalProject : String → String) :
    (∀ (existing : List LocalTask) (input : MembershipInput) (deps : MembershipDeps)
        (first : MembershipResult),
      (existing.map LinkedBoards.BoardTask.id).Nodup →
        deps.id ∉ existing.map LinkedBoards.BoardTask.id → deps.id ∉ input.explicitTaskIds →
          ensureTaskMembership canonicalProject existing input deps = .ok first →
            (Again first (ensureTaskMembership canonicalProject first.tasks input) ↔
              Settles existing input deps.now ∧ AcceptsRecorded existing input deps)) ∧
      ∀ (tasks : List LocalTask) (calls : List (MembershipInput × MembershipDeps)),
        OneForEachOrigin tasks →
          OneForEachOrigin (calls.foldl (afterCall canonicalProject) tasks) := by
  refine ⟨fun existing input deps first hids hfresh hfreshTarget h => ?_, fun tasks calls hone => ?_⟩
  · rw [replay_converges_iff hids hfresh hfreshTarget h, readmitted_iff hids hfresh h]
  · exact oneForEachOrigin_calls canonicalProject calls hone

/-! ### A replay that is refused -/

def noon : Instant := ⟨"2026-01-02T12:00:00.000Z", some 1767355200000⟩

/-- A launch that resumes a conversation, with two targets. -/
def resumeInput : MembershipInput :=
  { project := "viewer", origin := (.launch, "launch-2"), title := none, description := none
    identity := ⟨some "conversation-1", some "launch-2", none, none, none, none⟩
    explicitTaskIds := ["task-1", "task-2"], fallbackOrigin := none, inherit := [], titled := false
    admission := none, admitRelated := none }

def resumeDeps : MembershipDeps := ⟨noon, "task-3"⟩

/-- A target of the resumed conversation. -/
def resumeTarget (id : String) (assignments : List TaskAssignment) : LocalTask :=
  let bare := barePlaceholder resumeInput ⟨noon, id⟩
  { bare with status := .assigned
              rest := { bare.rest with origin := none, assignments := assignments } }

/-- The conversation is linked to one of the two by the launch that opened it. -/
def resumeTargets : List LocalTask :=
  [resumeTarget "task-1" [⟨none, some "launch-1", none, none, some "conversation-1", none,
      .linked, none, noon, none, none⟩], resumeTarget "task-2" []]

/-- What the admission of the resume answers. -/
def resumed : MembershipResult :=
  match ensureTaskMembership id resumeTargets resumeInput resumeDeps with
  | .ok result => result
  | .error _ => ⟨[], [], [], false⟩

theorem call_resume :
    ensureTaskMembership id resumeTargets resumeInput resumeDeps = .ok resumed := by
  decide +kernel

/-- The first target keeps its launch key, so that the replay finds the key on the second alone. -/
theorem replay_resume : ensureTaskMembership id resumed.tasks resumeInput resumeDeps =
    refuse 409
      "this launch was admitted with a different task target set; a retry keeps the original" := by
  decide +kernel

theorem membership_replay_refused :
    ¬ ∀ (canonicalProject : String → String) (existing : List LocalTask) (input : MembershipInput)
        (deps : MembershipDeps) (first : MembershipResult),
      (existing.map LinkedBoards.BoardTask.id).Nodup →
        deps.id ∉ existing.map LinkedBoards.BoardTask.id → deps.id ∉ input.explicitTaskIds →
          ensureTaskMembership canonicalProject existing input deps = .ok first →
            Again first (ensureTaskMembership canonicalProject first.tasks input) := by
  intro h
  obtain ⟨second, hsecond, -⟩ := h id resumeTargets resumeInput resumeDeps resumed
    (by decide) (by decide) (by decide) call_resume resumeDeps
  rw [replay_resume] at hsecond
  cases hsecond

/-- Both parts for that list, where the replay does not converge. -/
theorem membership_converges_iff_resume :
    (Again resumed (ensureTaskMembership id resumed.tasks resumeInput) ↔
      Settles resumeTargets resumeInput noon ∧
        AcceptsRecorded resumeTargets resumeInput resumeDeps) ∧
      OneForEachOrigin ([(resumeInput, resumeDeps)].foldl (afterCall id) []) :=
  ⟨(membership_converges_iff id).1 resumeTargets resumeInput resumeDeps resumed
      (by decide) (by decide) (by decide) call_resume,
    (membership_converges_iff id).2 [] [(resumeInput, resumeDeps)] (fun i _ _ _ h => nomatch h)⟩

end Delegatus.TaskMembership
