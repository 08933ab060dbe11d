import Delegatus.MembershipRecording

/-!
# Membership without targets, a second time

The recorded list resolves an admission without targets as the first call did
(`ensureUntargeted_again`), except where it joined the tasks of participants of which some had
a failed row for the identity and some had none: the linked rows of the others then hold the
identity alone.
-/

namespace Delegatus.TaskMembership

open LinkStamps (Instant)
open LinkedBoards (LocalTask MembershipIdentity OriginKind TaskAssignment TaskOrigin
  assignmentHoldsIdentity hasIdentity nonEmpty truthy upsertLinked)

/-! ### What recording keeps -/

theorem Upserted.exists_mono {identity : MembershipIdentity} {fresh : TaskAssignment}
    {rows rows' : List TaskAssignment} {P : TaskAssignment → Prop}
    (h : Upserted identity fresh rows rows')
    (hP : ∀ row, assignmentHoldsIdentity row identity = true → P row → P (filledRow identity row))
    (hex : ∃ row ∈ rows, P row) : ∃ row ∈ rows', P row := by
  obtain ⟨held, hmem, hheld⟩ := hex
  cases h with
  | filled before holder =>
    rcases List.mem_append.mp hmem with hmem | hmem
    · exact ⟨held, List.mem_append_left _ hmem, hheld⟩
    · rcases List.mem_cons.mp hmem with rfl | hmem
      · exact ⟨filledRow identity held, by simp, hP held holder hheld⟩
      · exact ⟨held, List.mem_append_right _ (List.mem_cons_of_mem _ hmem), hheld⟩
  | linked none => exact ⟨held, List.mem_append_left _ hmem, hheld⟩

theorem sameKey_filledRow {identity : MembershipIdentity} {row : TaskAssignment}
    (h : sameKey row identity = true) : sameKey (filledRow identity row) identity = true := by
  cases hl : truthy identity.launchId <;> cases hl' : truthy row.launchId <;>
    cases ha : truthy identity.clientAttemptId <;> cases ha' : truthy row.clientAttemptId <;>
      simp_all [sameKey, filledRow, fill]

theorem keyed_iff_exists {identity : MembershipIdentity} {task : LocalTask} :
    keyed identity task = true ↔ ∃ row ∈ task.rest.assignments,
      row.state ≠ .failed ∧ sameKey row identity = true := by
  simp [keyed]

theorem carriesKey_iff_exists {identity : MembershipIdentity} {task : LocalTask} :
    carriesKey identity task = true ↔ ∃ row ∈ task.rest.assignments, sameKey row identity = true := by
  simp [carriesKey]

theorem carriesKey_of_keyed {identity : MembershipIdentity} {task : LocalTask}
    (h : keyed identity task = true) : carriesKey identity task = true := by
  obtain ⟨row, hrow, -, hkey⟩ := keyed_iff_exists.mp h
  exact carriesKey_iff_exists.mpr ⟨row, hrow, hkey⟩

section

variable {identity : MembershipIdentity} {now : Instant} {task task' : LocalTask}

theorem Recorded.holds_mono (h : Recorded identity now task task') (hheld : holds identity task = true) :
    holds identity task' = true :=
  holds_iff_exists.mpr (h.upserted.exists_mono
    (fun _ _ hrow => ⟨hrow.1, assignmentHoldsIdentity_filledRow hrow.2⟩) (holds_iff_exists.mp hheld))

theorem Recorded.keyed_mono (h : Recorded identity now task task') (hkey : keyed identity task = true) :
    keyed identity task' = true :=
  keyed_iff_exists.mpr (h.upserted.exists_mono
    (fun _ _ hrow => ⟨hrow.1, sameKey_filledRow hrow.2⟩) (keyed_iff_exists.mp hkey))

theorem Recorded.carriesKey_mono (h : Recorded identity now task task')
    (hkey : carriesKey identity task = true) : carriesKey identity task' = true :=
  carriesKey_iff_exists.mpr (h.upserted.exists_mono
    (fun _ _ hrow => sameKey_filledRow hrow) (carriesKey_iff_exists.mp hkey))

end

/-! ### What a resolution reads -/

/-- The fields of a task that recording leaves. -/
def frame (task : LocalTask) : String × String × Option TaskOrigin :=
  (task.id, task.project, task.rest.origin)

theorem RecordedAt.frame {identity : MembershipIdentity} {now : Instant} {indexes : List Nat}
    {tasks tasks' : List LocalTask} (h : RecordedAt identity now indexes tasks tasks') :
    tasks'.map frame = tasks.map frame := by
  apply List.ext_getElem?
  intro i
  rw [List.getElem?_map, List.getElem?_map]
  by_cases hmem : i ∈ indexes
  · cases htask : tasks[i]? with
    | none =>
      have hnone : tasks'[i]? = none := by
        rw [List.getElem?_eq_none_iff, h.length]
        exact List.getElem?_eq_none_iff.mp htask
      rw [hnone]
    | some task =>
      obtain ⟨task', htask', hrecorded⟩ := h.recorded i task hmem htask
      rw [htask']
      simp [TaskMembership.frame, hrecorded.id, hrecorded.project, hrecorded.origin]
  · rw [h.others i hmem]

section

variable {tasks tasks' : List LocalTask}

theorem findIdx?_of_frame (h : tasks'.map frame = tasks.map frame)
    (wanted : String × String × Option TaskOrigin → Bool) :
    tasks'.findIdx? (fun task => wanted (frame task)) =
      tasks.findIdx? (fun task => wanted (frame task)) := by
  have hmap : ∀ list : List LocalTask,
      list.findIdx? (fun task => wanted (frame task)) = (list.map frame).findIdx? wanted :=
    fun list => List.findIdx?_map.symm
  rw [hmap, hmap, h]

theorem getElem?_of_frame (h : tasks'.map frame = tasks.map frame) {i : Nat} {task : LocalTask}
    (htask : tasks[i]? = some task) : ∃ task', tasks'[i]? = some task' ∧ frame task' = frame task := by
  have hi := congrArg (fun list => list[i]?) h
  simp only [List.getElem?_map, htask] at hi
  obtain ⟨task', htask', hframe⟩ := Option.map_eq_some_iff.mp hi
  exact ⟨task', htask', hframe⟩

theorem ids_of_frame (h : tasks'.map frame = tasks.map frame) :
    tasks'.map LinkedBoards.BoardTask.id = tasks.map LinkedBoards.BoardTask.id := by
  have hids := congrArg (List.map Prod.fst) h
  simpa [List.map_map, Function.comp_def, frame] using hids

theorem idsAt_of_frame (h : tasks'.map frame = tasks.map frame) (indexes : List Nat) :
    idsAt tasks' indexes = idsAt tasks indexes := by
  have hids := ids_of_frame h
  unfold idsAt
  congr 1
  funext i
  rw [← List.getElem?_map, ← List.getElem?_map, hids]

theorem indexesOf_congr (hlength : tasks'.length = tasks.length) {wanted wanted' : LocalTask → Bool}
    (h : ∀ (i : Nat) task task', tasks[i]? = some task → tasks'[i]? = some task' →
      wanted' task' = wanted task) : indexesOf wanted' tasks' = indexesOf wanted tasks := by
  unfold indexesOf
  rw [hlength]
  apply List.filter_congr
  intro i hi
  have hlt : i < tasks.length := List.mem_range.mp hi
  have hlt' : i < tasks'.length := by omega
  rw [List.getElem?_eq_getElem hlt, List.getElem?_eq_getElem hlt']
  exact h i _ _ (List.getElem?_eq_getElem hlt) (List.getElem?_eq_getElem hlt')

theorem length_indexesOf_lt {wanted wanted' : LocalTask → Bool} {i : Nat}
    (hsub : ∀ j ∈ indexesOf wanted' tasks', j ∈ indexesOf wanted tasks)
    (hi : i ∈ indexesOf wanted tasks) (hi' : i ∉ indexesOf wanted' tasks') :
    (indexesOf wanted' tasks').length < (indexesOf wanted tasks).length := by
  have hnodup : (i :: indexesOf wanted' tasks').Nodup :=
    List.nodup_cons.mpr ⟨hi', nodup_indexesOf _ _⟩
  have hsubset : i :: indexesOf wanted' tasks' ⊆ indexesOf wanted tasks := by
    intro j hj
    rcases List.mem_cons.mp hj with rfl | hj
    · exact hi
    · exact hsub j hj
  exact (hnodup.subperm hsubset).length_le

end

/-! ### The same tasks again -/

/-- The tasks that an admission joins through its participants all have a row for the identity,
or none of them has. -/
def JoinsAlike (existing : List LocalTask) (input : MembershipInput) : Prop :=
  (∀ task ∈ existing, ofOrigin (JsStrings.trim input.project) input.origin task = false) →
    (∀ task ∈ existing, holds input.identity task = false) →
      (∀ task ∈ existing, inherits input.inherit task = true → Unrecorded input.identity task) ∨
        (∀ task ∈ existing, inherits input.inherit task = true → ¬ Unrecorded input.identity task)

/-- Where an admission without targets resolves to existing tasks. -/
inductive Resolves (existing : List LocalTask) (input : MembershipInput) : List Nat → Prop where
  | origin {index : Nat}
      (found : existing.findIdx? (ofOrigin (JsStrings.trim input.project) input.origin) = some index) :
      Resolves existing input [index]
  | held
      (unfound : existing.findIdx? (ofOrigin (JsStrings.trim input.project) input.origin) = none)
      (some : indexesOf (holds input.identity) existing ≠ []) :
      Resolves existing input (indexesOf (holds input.identity) existing)
  | inherited
      (unfound : existing.findIdx? (ofOrigin (JsStrings.trim input.project) input.origin) = none)
      (free : indexesOf (holds input.identity) existing = [])
      (some : indexesOf (inherits input.inherit) existing ≠ []) :
      Resolves existing input (indexesOf (inherits input.inherit) existing)

section

variable {existing recorded : List LocalTask} {input : MembershipInput} {now : Instant}
  {indexes : List Nat}

theorem resolved_some : resolved existing input = some indexes ↔ Resolves existing input indexes := by
  constructor
  · intro h
    unfold resolved at h
    split at h
    · rename_i index hfound
      obtain rfl := Option.some.inj h
      exact .origin hfound
    · rename_i hunfound
      dsimp only at h
      split at h
      · rename_i hheld
        obtain rfl := Option.some.inj h
        exact .held hunfound hheld
      · rename_i hfree
        split at h
        · rename_i hinherited
          obtain rfl := Option.some.inj h
          exact .inherited hunfound (not_not.mp hfree) hinherited
        · cases h
  · intro h
    unfold resolved
    cases h with
    | origin found => rw [found]
    | held unfound held => simp [unfound, held]
    | inherited unfound free inherited => simp [unfound, free, inherited]

theorem resolved_none : resolved existing input = none ↔
    existing.findIdx? (ofOrigin (JsStrings.trim input.project) input.origin) = none ∧
      indexesOf (holds input.identity) existing = [] ∧
        indexesOf (inherits input.inherit) existing = [] := by
  unfold resolved
  cases existing.findIdx? (ofOrigin (JsStrings.trim input.project) input.origin) with
  | some index => simp
  | none =>
    by_cases hheld : indexesOf (holds input.identity) existing = []
    · by_cases hinherited : indexesOf (inherits input.inherit) existing = []
      · simp [hheld, hinherited]
      · simp [hheld, hinherited]
    · simp [hheld]

theorem Resolves.nodup (h : Resolves existing input indexes) : indexes.Nodup := by
  cases h with
  | origin found => exact List.nodup_singleton _
  | held => exact nodup_indexesOf _ _
  | inherited => exact nodup_indexesOf _ _

theorem Resolves.lt (h : Resolves existing input indexes) : ∀ i ∈ indexes, i < existing.length := by
  intro i hi
  cases h with
  | origin found =>
    rw [List.mem_singleton.mp hi]
    exact (List.findIdx?_eq_some_iff_getElem.mp found).1
  | held =>
    obtain ⟨task, htask, -⟩ := mem_indexesOf.mp hi
    exact (List.getElem?_eq_some_iff.mp htask).1
  | inherited =>
    obtain ⟨task, htask, -⟩ := mem_indexesOf.mp hi
    exact (List.getElem?_eq_some_iff.mp htask).1

theorem length_idsAt (h : ∀ i ∈ indexes, i < existing.length) :
    (idsAt existing indexes).length = indexes.length := by
  unfold idsAt
  induction indexes with
  | nil => rfl
  | cons index rest ih =>
    have hlt := h index List.mem_cons_self
    rw [List.filterMap_cons, List.getElem?_eq_getElem hlt]
    simpa using ih (fun i hi => h i (List.mem_cons_of_mem _ hi))

theorem RecordedAt.settled (hidentity : hasIdentity input.identity = true)
    (h : RecordedAt input.identity now indexes existing recorded) (now' : Instant) :
    ∀ i ∈ indexes, ∀ task, recorded[i]? = some task →
      upsertLinked task input.identity now' = (task, false) := by
  intro i hi task htask
  have hlt : i < existing.length := by
    rw [← h.length]
    exact (List.getElem?_eq_some_iff.mp htask).1
  obtain ⟨task', htask', hrecorded⟩ := h.recorded i _ hi (List.getElem?_eq_getElem hlt)
  obtain rfl := Option.some.inj (htask.symm.trans htask')
  exact upsertLinked_again hidentity hrecorded.upserted now'

theorem RecordedAt.findIdx?_ofOrigin
    (h : RecordedAt input.identity now indexes existing recorded) (project : String)
    (origin : OriginKind × String) :
    recorded.findIdx? (ofOrigin project origin) = existing.findIdx? (ofOrigin project origin) :=
  findIdx?_of_frame h.frame (fun fields => decide (fields.2.1 = project) &&
    fields.2.2.any (fun held : TaskOrigin => decide (held.kind = origin.1 ∧ held.key = origin.2)))

/-- The live rows for the identity, where participants were joined: those that were linked. -/
theorem RecordedAt.holds_iff_unrecorded (hidentity : hasIdentity input.identity = true)
    (h : RecordedAt input.identity now (indexesOf (inherits input.inherit) existing) existing recorded)
    (hfree : indexesOf (holds input.identity) existing = []) {i : Nat} {task task' : LocalTask}
    (htask : existing[i]? = some task) (htask' : recorded[i]? = some task') :
    holds input.identity task' = true ↔
      inherits input.inherit task = true ∧ Unrecorded input.identity task := by
  have hfree' := indexesOf_eq_nil.mp hfree task (List.mem_of_getElem? htask)
  by_cases hinherits : inherits input.inherit task = true
  · obtain ⟨task'', htask'', hrecorded⟩ :=
      h.recorded i task (mem_indexesOf.mpr ⟨task, htask, hinherits⟩) htask
    obtain rfl := Option.some.inj (htask'.symm.trans htask'')
    rw [hrecorded.holds_iff hfree' input.identity, hfree',
      assignmentHoldsIdentity_linked hidentity]
    simp [hinherits]
  · have hi : i ∉ indexesOf (inherits input.inherit) existing := by
      intro hmem
      obtain ⟨task'', htask'', hinherits'⟩ := mem_indexesOf.mp hmem
      obtain rfl := Option.some.inj (htask.symm.trans htask'')
      exact hinherits hinherits'
    obtain rfl := Option.some.inj (htask'.symm.trans ((h.others i hi).trans htask))
    simp [hfree', hinherits]

/-- **The recorded list resolves to the same tasks** where the participants' tasks are alike, and
to fewer elsewhere. -/
theorem Resolves.again (hidentity : hasIdentity input.identity = true)
    (hresolves : Resolves existing input indexes)
    (h : RecordedAt input.identity now indexes existing recorded) :
    (JoinsAlike existing input → Resolves recorded input indexes) ∧
      (¬ JoinsAlike existing input →
        ∃ fewer, Resolves recorded input fewer ∧ fewer.length < indexes.length) := by
  cases hresolves with
  | origin found =>
    refine ⟨fun _ => .origin ((h.findIdx?_ofOrigin _ _).trans found), fun halike => ?_⟩
    obtain ⟨hlt, hfound, -⟩ := List.findIdx?_eq_some_iff_getElem.mp found
    refine absurd (fun hnone => ?_) halike
    rw [hnone _ (List.getElem_mem hlt)] at hfound
    cases hfound
  | held unfound held =>
    have hunfound := (h.findIdx?_ofOrigin _ _).trans unfound
    have hsame : indexesOf (holds input.identity) recorded =
        indexesOf (holds input.identity) existing := by
      refine indexesOf_congr h.length (fun i task task' htask htask' => ?_)
      by_cases hmem : i ∈ indexesOf (holds input.identity) existing
      · obtain ⟨task'', htask'', hrecorded⟩ := h.recorded i task hmem htask
        obtain rfl := Option.some.inj (htask'.symm.trans htask'')
        obtain ⟨held, hheld, hholds⟩ := mem_indexesOf.mp hmem
        obtain rfl := Option.some.inj (htask.symm.trans hheld)
        rw [hholds, hrecorded.holds_mono hholds]
      · obtain rfl := Option.some.inj (htask'.symm.trans ((h.others i hmem).trans htask))
        rfl
    refine ⟨fun _ => hsame ▸ .held hunfound (hsame ▸ held), fun halike => ?_⟩
    refine absurd (fun _ hfree => absurd (indexesOf_eq_nil.mpr hfree) held) halike
  | inherited unfound free inherited =>
    have hunfound := (h.findIdx?_ofOrigin _ _).trans unfound
    have hheld : ∀ i task task', existing[i]? = some task → recorded[i]? = some task' →
        (holds input.identity task' = true ↔
          inherits input.inherit task = true ∧ Unrecorded input.identity task) :=
      fun i task task' => h.holds_iff_unrecorded hidentity free
    constructor
    · intro halike
      have hnone : ∀ task ∈ existing,
          ofOrigin (JsStrings.trim input.project) input.origin task = false := by
        intro task htask
        exact List.findIdx?_eq_none_iff.mp unfound task htask
      rcases halike hnone (indexesOf_eq_nil.mp free) with hlinked | hfilled
      · -- every participant's task was linked, so all hold the identity
        have hsame : indexesOf (holds input.identity) recorded =
            indexesOf (inherits input.inherit) existing := by
          refine indexesOf_congr h.length (fun i task task' htask htask' => ?_)
          rw [Bool.eq_iff_iff, hheld i task task' htask htask']
          exact and_iff_left_of_imp (hlinked task (List.mem_of_getElem? htask))
        exact hsame ▸ .held hunfound (hsame ▸ inherited)
      · -- every row was filled and stays failed, so the participants decide again
        have hfree : indexesOf (holds input.identity) recorded = [] := by
          refine indexesOf_eq_nil.mpr (fun task' htask' => ?_)
          obtain ⟨i, hi⟩ := List.getElem?_of_mem htask'
          have hlt : i < existing.length := by
            rw [← h.length]
            exact (List.getElem?_eq_some_iff.mp hi).1
          by_contra hholds
          obtain ⟨hinherits, hunrecorded⟩ := (hheld i _ task' (List.getElem?_eq_getElem hlt) hi).mp
            (Bool.eq_true_of_not_eq_false hholds)
          exact hfilled _ (List.getElem_mem hlt) hinherits hunrecorded
        have hsame : indexesOf (inherits input.inherit) recorded =
            indexesOf (inherits input.inherit) existing := by
          refine indexesOf_congr h.length (fun i task task' htask htask' => ?_)
          by_cases hmem : i ∈ indexesOf (inherits input.inherit) existing
          · obtain ⟨task'', htask'', hrecorded⟩ := h.recorded i task hmem htask
            obtain rfl := Option.some.inj (htask'.symm.trans htask'')
            obtain ⟨held, hheld', hinherits⟩ := mem_indexesOf.mp hmem
            obtain rfl := Option.some.inj (htask.symm.trans hheld')
            have hunrecorded := hfilled task (List.mem_of_getElem? htask) hinherits
            have hfree' := indexesOf_eq_nil.mp free task (List.mem_of_getElem? htask)
            simp only [inherits]
            congr 1
            funext other
            rw [Bool.eq_iff_iff, hrecorded.holds_iff hfree' other]
            simp [hunrecorded]
          · obtain rfl := Option.some.inj (htask'.symm.trans ((h.others i hmem).trans htask))
            rfl
        exact hsame ▸ .inherited hunfound hfree (hsame ▸ inherited)
    · intro halike
      have hmixed : (∃ task ∈ existing, inherits input.inherit task = true ∧
            ¬ Unrecorded input.identity task) ∧
          ∃ task ∈ existing, inherits input.inherit task = true ∧ Unrecorded input.identity task := by
        by_contra hnot
        refine halike (fun _ _ => ?_)
        rw [not_and_or] at hnot
        refine hnot.imp (fun h task htask hin => ?_) (fun h task htask hin hun => ?_)
        · by_contra hun
          exact h ⟨task, htask, hin, hun⟩
        · exact h ⟨task, htask, hin, hun⟩
      obtain ⟨⟨filled, hfilled, hfilledIn, hfilledRow⟩, linked, hlinked, hlinkedIn, hlinkedRow⟩ := hmixed
      refine ⟨indexesOf (holds input.identity) recorded, .held hunfound ?_, ?_⟩
      · obtain ⟨i, hi⟩ := List.getElem?_of_mem hlinked
        obtain ⟨task', htask', -⟩ := getElem?_of_frame h.frame hi
        have hholds := (hheld i linked task' hi htask').mpr ⟨hlinkedIn, hlinkedRow⟩
        exact List.ne_nil_of_mem (mem_indexesOf.mpr ⟨task', htask', hholds⟩)
      · obtain ⟨i, hi⟩ := List.getElem?_of_mem hfilled
        refine length_indexesOf_lt (i := i) ?_ (mem_indexesOf.mpr ⟨filled, hi, hfilledIn⟩) ?_
        · intro j hj
          obtain ⟨task', htask', hholds⟩ := mem_indexesOf.mp hj
          have hlt : j < existing.length := by
            rw [← h.length]
            exact (List.getElem?_eq_some_iff.mp htask').1
          have hget := List.getElem?_eq_getElem hlt
          exact mem_indexesOf.mpr ⟨_, hget, ((hheld j _ task' hget htask').mp hholds).1⟩
        · intro hmem
          obtain ⟨task', htask', hholds⟩ := mem_indexesOf.mp hmem
          exact hfilledRow ((hheld i filled task' hi htask').mp hholds).2

end

/-! ### The placeholder -/

/-- The row has every identifier that the identity names. -/
structure CarriesIdentity (identity : MembershipIdentity) (row : TaskAssignment) : Prop where
  launchId : truthy identity.launchId = true → row.launchId = identity.launchId
  clientAttemptId : truthy identity.clientAttemptId = true →
    row.clientAttemptId = identity.clientAttemptId
  conversationId : truthy identity.conversationId = true →
    row.conversationId = identity.conversationId
  path : identity.path.isSome = true → row.path = identity.path
  engine : identity.engine.isSome = true → row.engine.isSome = true
  accountId : truthy identity.accountId = true → truthy row.accountId = true

section

variable {identity : MembershipIdentity} {row : TaskAssignment}

theorem carriesIdentity_linkedRow (task : LocalTask) (identity : MembershipIdentity) (now : Instant) :
    CarriesIdentity identity (linkedRow task identity now) :=
  ⟨nonEmpty_of_truthy, nonEmpty_of_truthy, nonEmpty_of_truthy, fun _ => rfl, fun h => h,
    fun h => by rw [linkedRow, truthy_nonEmpty, h]⟩

theorem fill_of_eq {held wanted : Option String} (given : Option String)
    (hwanted : truthy wanted = true) (h : held = wanted) : fill held given = wanted := by
  rw [h, fill_of_truthy _ hwanted]

/-- Filling a row from another identity keeps what it has. -/
theorem CarriesIdentity.filledRow (h : CarriesIdentity identity row) (other : MembershipIdentity) :
    CarriesIdentity identity (filledRow other row) := by
  refine ⟨fun hl => fill_of_eq _ hl (h.launchId hl), fun ha => fill_of_eq _ ha (h.clientAttemptId ha),
    fun hc => fill_of_eq _ hc (h.conversationId hc), fun hp => ?_, fun he => ?_, fun ha => ?_⟩
  · simp only [TaskMembership.filledRow, h.path hp]
    obtain ⟨path, hpath⟩ := Option.isSome_iff_exists.mp hp
    rw [hpath]
    rfl
  · simp [TaskMembership.filledRow, h.engine he]
  · simp [TaskMembership.filledRow, fill_of_truthy _ (h.accountId ha), h.accountId ha]

theorem fill_eq_self {held given : Option String} (h : truthy given = true → truthy held = true) :
    fill held given = held := by
  cases hgiven : truthy given with
  | false => exact fill_of_not_given _ hgiven
  | true => exact fill_of_truthy _ (h hgiven)

theorem CarriesIdentity.filledRow_self (h : CarriesIdentity identity row) :
    TaskMembership.filledRow identity row = row := by
  have hl := fill_eq_self (fun hl => (h.launchId hl).symm ▸ hl)
  have ha := fill_eq_self (fun ha => (h.clientAttemptId ha).symm ▸ ha)
  have hc := fill_eq_self (fun hc => (h.conversationId hc).symm ▸ hc)
  have haccount := fill_eq_self h.accountId
  have hpath : row.path.orElse (fun _ => identity.path) = row.path := by
    cases hpath : identity.path with
    | none => cases row.path <;> rfl
    | some path =>
      rw [h.path (by rw [hpath]; rfl), hpath]
      rfl
  have hengine : (identity.engine.isSome && !row.engine.isSome) = false := by
    cases hengine : identity.engine.isSome with
    | false => rfl
    | true => simp [h.engine hengine]
  simp only [TaskMembership.filledRow, hl, ha, hc, haccount, hpath, hengine, Bool.false_eq_true,
    if_false]

theorem CarriesIdentity.holds (h : CarriesIdentity identity row) (hnamed : hasIdentity identity = true) :
    assignmentHoldsIdentity row identity = true := by
  simp only [hasIdentity, Bool.or_eq_true] at hnamed
  unfold assignmentHoldsIdentity
  split_ifs with hconversation hlaunch hattempt
  · simp [h.conversationId (Bool.and_eq_true_iff.mp hconversation).1]
  · simp [h.launchId (Bool.and_eq_true_iff.mp hlaunch).1]
  · simp [h.clientAttemptId (Bool.and_eq_true_iff.mp hattempt).1]
  · have hnone : ∀ {named held : Option String}, (truthy named = true → held = named) →
        ¬ (truthy named && truthy held) = true → truthy named = false := by
      intro named held hsame hnot
      cases hnamed : truthy named with
      | false => rfl
      | true => simp [hsame hnamed, hnamed] at hnot
    have hc := hnone h.conversationId hconversation
    have hl := hnone h.launchId hlaunch
    have ha := hnone h.clientAttemptId hattempt
    rw [hl, ha, hc] at hnamed
    have hpath : truthy identity.path = true := by simpa using hnamed
    have hsome : identity.path.isSome = true := by
      cases hp : identity.path with
      | none => rw [hp] at hpath; cases hpath
      | some path => rfl
    simp [hpath, h.path hsome]

/-- The admission names a launch. -/
def hasKey (identity : MembershipIdentity) : Bool :=
  truthy identity.launchId || truthy identity.clientAttemptId

theorem CarriesIdentity.sameKey (h : CarriesIdentity identity row) (hkey : hasKey identity = true) :
    sameKey row identity = true := by
  unfold TaskMembership.sameKey
  cases hl : truthy identity.launchId with
  | true => simp [h.launchId hl, hl]
  | false =>
    have ha : truthy identity.clientAttemptId = true := by simpa [hasKey, hl] using hkey
    simp [ha, h.clientAttemptId ha]

theorem sameKey_of_no_key (h : hasKey identity = false) (row : TaskAssignment) :
    sameKey row identity = false := by
  simp only [hasKey, Bool.or_eq_false_iff] at h
  simp [sameKey, h.1, h.2]

/-- The first row of the task is live and has every identifier of the identity. -/
def Binds (identity : MembershipIdentity) (task : LocalTask) : Prop :=
  ∃ row rest, task.rest.assignments = row :: rest ∧ row.state = .linked ∧
    CarriesIdentity identity row

theorem Binds.upsertLinked {task : LocalTask} (h : Binds identity task) (other : MembershipIdentity)
    (now : Instant) : Binds identity (upsertLinked task other now).1 := by
  obtain ⟨row, rest, hrows, hlinked, hcarries⟩ := h
  have hupserted := upsertLinked_upserted task other now
  rw [hrows] at hupserted
  unfold Binds
  generalize (LinkedBoards.upsertLinked task other now).1.rest.assignments = rows' at hupserted ⊢
  generalize hbefore : row :: rest = rows at hupserted
  cases hupserted with
  | @filled pre post held before holder =>
    cases pre with
    | nil =>
      obtain ⟨rfl, -⟩ := List.cons.inj hbefore
      exact ⟨_, _, rfl, hlinked, hcarries.filledRow other⟩
    | cons first pre =>
      obtain ⟨rfl, -⟩ := List.cons.inj hbefore
      exact ⟨_, _, rfl, hlinked, hcarries⟩
  | linked none =>
    subst hbefore
    exact ⟨_, _, rfl, hlinked, hcarries⟩

end

/-- The placeholder binds the identity that it was made for, whoever else it binds. -/
theorem binds_placeholder (input : MembershipInput) (deps : MembershipDeps) :
    Binds input.identity (placeholder input deps) := by
  unfold placeholder
  generalize input.inherit.filter hasIdentity = participants
  have hfirst : Binds input.identity
      (upsertLinked (barePlaceholder input deps) input.identity deps.now).1 :=
    ⟨linkedRow (barePlaceholder input deps) input.identity deps.now, [], rfl, rfl,
      carriesIdentity_linkedRow _ _ _⟩
  generalize (upsertLinked (barePlaceholder input deps) input.identity deps.now).1 = bound at hfirst
  induction participants generalizing bound with
  | nil => exact hfirst
  | cons other rest ih => exact ih _ (hfirst.upsertLinked other deps.now)

theorem frame_placeholder (input : MembershipInput) (deps : MembershipDeps) :
    frame (placeholder input deps) = frame (barePlaceholder input deps) := by
  unfold placeholder
  generalize input.inherit.filter hasIdentity = participants
  have hkeep : ∀ (task : LocalTask) (identity : MembershipIdentity),
      frame (upsertLinked task identity deps.now).1 = frame task := by
    intro task identity
    obtain ⟨hid, hproject, horigin⟩ := upsertLinked_frame task identity deps.now
    simp only [frame, hid, hproject, horigin]
  rw [← hkeep (barePlaceholder input deps) input.identity]
  generalize (upsertLinked (barePlaceholder input deps) input.identity deps.now).1 = bound
  induction participants generalizing bound with
  | nil => rfl
  | cons other rest ih => exact (ih _).trans (hkeep bound other)

/-! ### The second call -/

/-- What an admission checks of its input alone. -/
def MembershipInput.Wellformed (input : MembershipInput) : Prop :=
  ¬ (JsStrings.trim input.project = "" ∧ input.explicitTaskIds = []) ∧
    JsStrings.trim input.origin.2 ≠ "" ∧ hasIdentity input.identity = true

/-- What the check of related tasks answers on a list. -/
def MembershipInput.related (input : MembershipInput) (tasks : List LocalTask) :
    Option MembershipRefusal :=
  input.admitRelated.bind (checkRelated tasks)

theorem precheck_ok {tasks : List LocalTask} {input : MembershipInput} {u : Unit} :
    precheck tasks input = .ok u ↔ input.Wellformed ∧ input.related tasks = none := by
  unfold precheck MembershipInput.Wellformed MembershipInput.related refuse
  split_ifs with hproject hkey hidentity
  · simp [hproject]
  · simp [hkey]
  · simp_all
  · cases hrelated : input.admitRelated.bind (checkRelated tasks) with
    | some refusal => simp
    | none => simp_all

/-- The tasks of the ids, in order. -/
def tasksOf (tasks : List LocalTask) (ids : List String) : List LocalTask :=
  ids.filterMap (fun id => tasks.find? (fun task => task.id = id))

/-- A second call answers as the first did and changes nothing. -/
def Again (first : MembershipResult)
    (call : MembershipDeps → Except MembershipFailure MembershipResult) : Prop :=
  ∀ deps, ∃ second, call deps = .ok second ∧ second.taskIds = first.taskIds ∧
    second.changed = false ∧ second.created = []

/-- The admission checks accept the recorded tasks. -/
structure Readmitted (input : MembershipInput) (first : MembershipResult) : Prop where
  related : input.related first.tasks = none
  launch : input.verdict (tasksOf first.tasks first.taskIds) = none

theorem find?_of_getElem? {tasks : List LocalTask}
    (hids : (tasks.map LinkedBoards.BoardTask.id).Nodup) {i : Nat} {task : LocalTask}
    (h : tasks[i]? = some task) : tasks.find? (fun held => held.id = task.id) = some task := by
  cases hfound : tasks.find? (fun held => held.id = task.id) with
  | none =>
    have hnot := List.find?_eq_none.mp hfound task (List.mem_of_getElem? h)
    simp at hnot
  | some held =>
    have hid : held.id = task.id := by simpa using List.find?_some hfound
    rw [List.inj_on_of_nodup_map hids (List.mem_of_find?_eq_some hfound) (List.mem_of_getElem? h) hid]

theorem tasksOf_idsAt {tasks : List LocalTask}
    (hids : (tasks.map LinkedBoards.BoardTask.id).Nodup) (indexes : List Nat) :
    tasksOf tasks (idsAt tasks indexes) = indexes.filterMap (tasks[·]?) := by
  unfold tasksOf idsAt
  rw [List.filterMap_filterMap]
  congr 1
  funext i
  cases htask : tasks[i]? with
  | none => rfl
  | some task => exact find?_of_getElem? hids htask

section

variable {existing : List LocalTask} {input : MembershipInput} {deps : MembershipDeps}
  {first : MembershipResult}

/-- The call on a list where the resolved tasks have the identity recorded. -/
theorem ensureUntargeted_settled {indexes : List Nat} {second : MembershipResult}
    (hresolves : Resolves existing input indexes)
    (hsettled : ∀ now, ∀ i ∈ indexes, ∀ task, existing[i]? = some task →
      upsertLinked task input.identity now = (task, false)) :
    ensureUntargeted existing input deps = .ok second ↔ precheck existing input = .ok () ∧
      input.verdict (indexes.filterMap (existing[·]?)) = none ∧
        second = ⟨existing, idsAt existing indexes, [], false⟩ := by
  rw [ensureUntargeted_of_resolved (resolved_some.mpr hresolves),
    joinTasks_again _ (hsettled deps.now)]

/-- What a successful call recorded: its tasks, which the list resolves to, or a placeholder. -/
theorem ensureUntargeted_ok (h : ensureUntargeted existing input deps = .ok first) :
    precheck existing input = .ok () ∧
      ((∃ indexes, Resolves existing input indexes ∧ first.taskIds = idsAt existing indexes ∧
          RecordedAt input.identity deps.now indexes existing first.tasks) ∨
        (resolved existing input = none ∧
          first = ⟨existing ++ [placeholder input deps], [deps.id], [deps.id], true⟩)) := by
  cases hresolved : resolved existing input with
  | some indexes =>
    obtain ⟨hcheck, hjoined⟩ := (ensureUntargeted_of_resolved hresolved).mp h
    have hresolves := resolved_some.mp hresolved
    obtain ⟨hids, -, hrecorded⟩ := joinTasks_ok hresolves.nodup hjoined
    exact ⟨hcheck, Or.inl ⟨indexes, hresolves, hids, hrecorded⟩⟩
  | none =>
    obtain ⟨hcheck, hfirst⟩ := (ensureUntargeted_of_unresolved hresolved).mp h
    exact ⟨hcheck, Or.inr ⟨rfl, hfirst⟩⟩

/-- On a list that has the identity recorded, a second call resolves the recorded tasks. -/
theorem again_of_resolves {indexes : List Nat}
    (hids : (first.tasks.map LinkedBoards.BoardTask.id).Nodup)
    (hresolves : Resolves first.tasks input indexes)
    (hsettled : ∀ now, ∀ i ∈ indexes, ∀ task, first.tasks[i]? = some task →
      upsertLinked task input.identity now = (task, false))
    (htaskIds : first.taskIds = idsAt first.tasks indexes) (hwellformed : input.Wellformed) :
    Again first (ensureUntargeted first.tasks input) ↔ Readmitted input first := by
  have hverdict : input.verdict (tasksOf first.tasks first.taskIds) =
      input.verdict (indexes.filterMap (first.tasks[·]?)) := by
    rw [htaskIds, tasksOf_idsAt hids]
  constructor
  · intro hagain
    obtain ⟨second, hsecond, -⟩ := hagain ⟨⟨"", none⟩, ""⟩
    obtain ⟨hcheck, hlaunch, -⟩ := (ensureUntargeted_settled hresolves hsettled).mp hsecond
    exact ⟨(precheck_ok.mp hcheck).2, hverdict.trans hlaunch⟩
  · intro hreadmitted deps
    refine ⟨⟨first.tasks, idsAt first.tasks indexes, [], false⟩, ?_, htaskIds.symm, rfl, rfl⟩
    exact (ensureUntargeted_settled hresolves hsettled).mpr
      ⟨precheck_ok.mpr ⟨hwellformed, hreadmitted.related⟩, hverdict.symm.trans hreadmitted.launch, rfl⟩

/-- A resolution of another number of tasks is not the first answer. -/
theorem not_again_of_length {indexes : List Nat} (hresolves : Resolves first.tasks input indexes)
    (hlength : indexes.length ≠ first.taskIds.length) :
    ¬ Again first (ensureUntargeted first.tasks input) := by
  intro hagain
  obtain ⟨second, hsecond, hids, -⟩ := hagain ⟨⟨"", none⟩, ""⟩
  obtain ⟨-, hjoined⟩ := (ensureUntargeted_of_resolved (resolved_some.mpr hresolves)).mp hsecond
  obtain ⟨hids', -⟩ := joinTasks_ok hresolves.nodup hjoined
  apply hlength
  rw [← hids, hids', length_idsAt hresolves.lt]

theorem nodup_ids_append {task : LocalTask} (hids : (existing.map LinkedBoards.BoardTask.id).Nodup)
    (hfresh : task.id ∉ existing.map LinkedBoards.BoardTask.id) :
    ((existing ++ [task]).map LinkedBoards.BoardTask.id).Nodup := by
  rw [List.map_append, List.nodup_append]
  refine ⟨hids, List.nodup_singleton _, ?_⟩
  rintro id hid _ hsame rfl
  rw [List.mem_singleton.mp hsame] at hid
  exact hfresh hid

theorem placeholder_id (input : MembershipInput) (deps : MembershipDeps) :
    (placeholder input deps).id = deps.id :=
  congrArg Prod.fst (frame_placeholder input deps)

theorem ofOrigin_placeholder (input : MembershipInput) (deps : MembershipDeps)
    (origin : OriginKind × String) :
    ofOrigin (JsStrings.trim input.project) origin (placeholder input deps) =
      decide (input.origin = origin) := by
  have hframe := frame_placeholder input deps
  have hsame := ofOrigin_of_same (JsStrings.trim input.project) origin
    (congrArg (fun fields => fields.2.1) hframe) (congrArg (fun fields => fields.2.2) hframe)
  rw [hsame]
  obtain ⟨kind, key⟩ := origin
  rcases hinput : input.origin with ⟨kind', key'⟩
  simp [ofOrigin, hasOrigin, barePlaceholder, hinput]

theorem Binds.settled {identity : MembershipIdentity} {task : LocalTask} (h : Binds identity task)
    (hnamed : hasIdentity identity = true) (now : Instant) :
    LinkedBoards.upsertLinked task identity now = (task, false) := by
  obtain ⟨row, rest, hrows, -, hcarries⟩ := h
  have hrows' : task.rest.assignments = [] ++ row :: rest := hrows
  exact upsertLinked_of_settled hrows' (fun _ hmem => absurd hmem List.not_mem_nil)
    (hcarries.holds hnamed) hcarries.filledRow_self

/-- After a placeholder was made, its own list resolves to it. -/
theorem resolves_placeholder (hnone : resolved existing input = none) :
    Resolves (existing ++ [placeholder input deps]) input [existing.length] := by
  obtain ⟨hunfound, -, -⟩ := resolved_none.mp hnone
  apply Resolves.origin
  rw [List.findIdx?_append, hunfound]
  simp [List.findIdx?_cons, ofOrigin_placeholder]

theorem joinsAlike_of_unresolved (hnone : resolved existing input = none) :
    JoinsAlike existing input := by
  intro _ _
  left
  intro task htask hinherits
  rw [indexesOf_eq_nil.mp (resolved_none.mp hnone).2.2 task htask] at hinherits
  cases hinherits

/-- **Without targets a second call converges exactly when** the participants' tasks are alike
and the admission checks accept what was recorded. -/
theorem untargeted_again_iff (hids : (existing.map LinkedBoards.BoardTask.id).Nodup)
    (hfresh : deps.id ∉ existing.map LinkedBoards.BoardTask.id)
    (h : ensureUntargeted existing input deps = .ok first) :
    Again first (ensureUntargeted first.tasks input) ↔
      JoinsAlike existing input ∧ Readmitted input first := by
  obtain ⟨hcheck, hrest⟩ := ensureUntargeted_ok h
  have hwellformed := (precheck_ok.mp hcheck).1
  have hnamed := hwellformed.2.2
  rcases hrest with ⟨indexes, hresolves, htaskIds, hrecorded⟩ | ⟨hnone, rfl⟩
  · have hids' : (first.tasks.map LinkedBoards.BoardTask.id).Nodup := by
      rw [ids_of_frame hrecorded.frame]
      exact hids
    have htaskIds' : first.taskIds = idsAt first.tasks indexes := by
      rw [htaskIds, idsAt_of_frame hrecorded.frame]
    obtain ⟨hsame, hfewer⟩ := hresolves.again hnamed hrecorded
    by_cases halike : JoinsAlike existing input
    · rw [and_iff_right halike]
      exact again_of_resolves hids' (hsame halike) (fun now => hrecorded.settled hnamed now)
        htaskIds' hwellformed
    · obtain ⟨fewer, hresolves', hlt⟩ := hfewer halike
      refine iff_of_false ?_ (fun h => halike h.1)
      apply not_again_of_length hresolves'
      rw [htaskIds, length_idsAt hresolves.lt]
      omega
  · rw [and_iff_right (joinsAlike_of_unresolved hnone)]
    refine again_of_resolves ?_ (resolves_placeholder hnone) ?_ ?_ hwellformed
    · exact nodup_ids_append hids (by rwa [placeholder_id])
    · intro now i hi task htask
      rw [List.mem_singleton.mp hi, List.getElem?_concat_length] at htask
      obtain rfl := Option.some.inj htask
      exact (binds_placeholder input deps).settled hnamed now
    · simp [idsAt, placeholder_id]

end

end Delegatus.TaskMembership
