import Delegatus.PublicationRecords
import Delegatus.Runs

/-!
# Merges of publication histories

`mergePublicationRecovery` joins two histories head by head: `lookup_merge` says what each head gets.  A
merge is idempotent and commutative where no two failures tie, and a copy of a lane is absorbed by what
the lane became (`Grown`), however much of the copy the lane has cut.
-/

namespace Delegatus.Publication

open JsonText OrderedLists Runs

/-! ### Heads -/

/-- The row of a head. -/
def lookup (value : Option Heads) (sha : Text) : Option Recovery := (value.getD Table.empty).at? sha

/-- Two histories are the same maps by head. -/
def SameHeads (a b : Option Heads) : Prop := a.isSome = b.isSome ∧ ∀ sha, lookup a sha = lookup b sha

variable {localeCompare : Text → Text → Int}

/-- What a merge makes of a row and one that the other side has. -/
def joined (localeCompare : Text → Text → Int) (sha : Text) : Option Recovery → Recovery → Recovery
  | none, row => row
  | some old, row => mergeRows localeCompare sha old row

theorem at?_foldl_merge (rows : List (Text × Recovery)) (hnodup : (rows.map Prod.fst).Nodup) (merged : Heads) (sha : Text) :
    let result := rows.foldl (mergeHead localeCompare) merged
    (∀ row, (sha, row) ∈ rows → Entries.at? result sha = some (joined localeCompare sha (Entries.at? merged sha) row)) ∧
      ((∀ row, (sha, row) ∉ rows) → Entries.at? result sha = Entries.at? merged sha) := by
  induction rows generalizing merged with
  | nil => exact ⟨fun row hrow => absurd hrow List.not_mem_nil, fun _ => rfl⟩
  | cons head rest ih =>
    rw [List.map_cons, List.nodup_cons] at hnodup
    have hstep : mergeHead localeCompare merged head =
        merged.set (head.1, joined localeCompare head.1 (Entries.at? merged head.1) head.2) := by
      unfold mergeHead
      cases Entries.at? merged head.1 with
      | none => exact rfl
      | some old => exact rfl
    dsimp only at ih ⊢
    rw [List.foldl_cons, hstep]
    obtain ⟨hin, hout⟩ := ih hnodup.2 (merged.set (head.1, joined localeCompare head.1 (Entries.at? merged head.1) head.2))
    constructor
    · intro row hrow
      rcases List.mem_cons.mp hrow with hhead | hrest
      · rw [hout fun other hother => hnodup.1 (List.mem_map.mpr ⟨(sha, other), hother, by rw [← hhead]⟩), ← hhead,
          Entries.at?_set, if_pos rfl]
      · have hne : sha ≠ head.1 := by
          rintro rfl
          exact hnodup.1 (List.mem_map.mpr ⟨_, hrest, rfl⟩)
        rw [hin row hrest, Entries.at?_set, if_neg hne]
    · intro hnone
      have hne : sha ≠ head.1 := by
        rintro rfl
        exact hnone head.2 List.mem_cons_self
      rw [hout fun row hrow => hnone row (List.mem_cons_of_mem _ hrow), Entries.at?_set, if_neg hne]

/-- **What each head gets.** -/
theorem lookup_merge (previous current : Option Heads) (sha : Text) :
    lookup (mergePublicationRecovery localeCompare previous current) sha =
      match lookup current sha with
      | none => lookup previous sha
      | some row => some (joined localeCompare sha (lookup previous sha) row) := by
  by_cases hnone : (previous.isNone && current.isNone) = true
  · rw [Bool.and_eq_true, Option.isNone_iff_eq_none, Option.isNone_iff_eq_none] at hnone
    rw [hnone.1, hnone.2]
    exact rfl
  · have hmerge : lookup (mergePublicationRecovery localeCompare previous current) sha =
        Entries.at? ((current.getD Table.empty).rows.foldl (mergeHead localeCompare) (previous.getD Table.empty)) sha := by
      unfold lookup mergePublicationRecovery
      rw [if_neg hnone, Option.getD_some]
    obtain ⟨hin, hout⟩ := @at?_foldl_merge localeCompare (current.getD Table.empty).rows
      (current.getD Table.empty).nodup (previous.getD Table.empty) sha
    rw [hmerge]
    cases hcurrent : lookup current sha with
    | none => exact hout fun row hrow => absurd (hcurrent.symm.trans (Entries.at?_eq_some.mpr hrow)) nofun
    | some row => exact hin row (Entries.at?_eq_some.mp hcurrent)

theorem isSome_merge (previous current : Option Heads) :
    (mergePublicationRecovery localeCompare previous current).isSome = (previous.isSome || current.isSome) := by
  unfold mergePublicationRecovery
  cases previous <;> cases current <;> rfl

/-! ### The earliest time -/

theorem earliest_eq_some {a b : Option Text} {since : Text} : earliest a b = some since ↔
    (a = some since ∨ b = some since) ∧ since ≠ [] ∧
      ∀ other, (a = some other ∨ b = some other) → other ≠ [] → since ≤ other := by
  have hmem : ∀ other, other ∈ ([a, b].reduceOption.filter (· ≠ [])) ↔ (a = some other ∨ b = some other) ∧ other ≠ [] := by
    intro other
    rw [List.mem_filter, List.reduceOption_mem_iff, decide_eq_true_eq, List.mem_cons, List.mem_singleton, eq_comm,
      @eq_comm _ _ b]
  have hsorted := @List.pairwise_mergeSort _ (fun a b : Text => decide (a ≤ b))
    (fun a b c hab hbc => by
      rw [decide_eq_true_eq] at hab hbc ⊢
      exact List.le_trans hab hbc)
    (fun a b => by
      rw [Bool.or_eq_true, decide_eq_true_eq, decide_eq_true_eq]
      exact List.le_total a b) ([a, b].reduceOption.filter (· ≠ []))
  have hperm := List.mergeSort_perm ([a, b].reduceOption.filter (· ≠ [])) fun a b : Text => decide (a ≤ b)
  unfold earliest
  generalize ([a, b].reduceOption.filter (· ≠ [])).mergeSort (fun a b : Text => decide (a ≤ b)) = sorted at *
  constructor
  · intro hhead
    obtain ⟨rest, rfl⟩ := List.head?_eq_some_iff.mp hhead
    obtain ⟨hfrom, hne⟩ := (hmem since).mp (hperm.subset List.mem_cons_self)
    refine ⟨hfrom, hne, fun other hother hother' => ?_⟩
    rcases List.mem_cons.mp (hperm.symm.subset ((hmem other).mpr ⟨hother, hother'⟩)) with rfl | hrest
    · exact List.le_refl _
    · simpa using (List.pairwise_cons.mp hsorted).1 other hrest
  · rintro ⟨hfrom, hne, hleast⟩
    have hin := hperm.symm.subset ((hmem since).mpr ⟨hfrom, hne⟩)
    cases sorted with
    | nil => exact absurd hin List.not_mem_nil
    | cons first rest =>
      obtain ⟨hfirst, hfirst'⟩ := (hmem first).mp (hperm.subset List.mem_cons_self)
      rw [List.head?_cons]
      congr 1
      apply List.le_antisymm
      · rcases List.mem_cons.mp hin with rfl | hrest
        · exact List.le_refl _
        · simpa using (List.pairwise_cons.mp hsorted).1 since hrest
      · exact hleast first hfirst hfirst'

/-- Of two times, one is the earliest. -/
theorem exists_earliest {a b : Option Text} {since : Text} (h : a = some since ∨ b = some since) (hne : since ≠ []) :
    ∃ other, earliest a b = some other := by
  have hmem : since ∈ ([a, b].reduceOption.filter (· ≠ [])).mergeSort fun a b : Text => decide (a ≤ b) := by
    rw [List.mem_mergeSort, List.mem_filter, List.reduceOption_mem_iff, decide_eq_true_eq, List.mem_cons,
      List.mem_singleton, eq_comm, @eq_comm _ _ b]
    exact ⟨h, hne⟩
  unfold earliest
  cases hsorted : ([a, b].reduceOption.filter (· ≠ [])).mergeSort fun a b : Text => decide (a ≤ b) with
  | nil => exact absurd (hsorted ▸ hmem) List.not_mem_nil
  | cons other rest => exact ⟨other, rfl⟩

theorem earliest_comm (a b : Option Text) : earliest a b = earliest b a := by
  apply Option.ext
  intro since
  rw [earliest_eq_some, earliest_eq_some]
  simp only [or_comm]

/-- A time that is not later than the other one. -/
theorem earliest_eq_right {a b : Option Text} (hb : ∀ since, b = some since → since ≠ [])
    (h : ∀ since, a = some since → since ≠ [] → ∃ other, b = some other ∧ other ≤ since) : earliest a b = b := by
  apply Option.ext
  intro since
  rw [earliest_eq_some]
  constructor
  · rintro ⟨hfrom | hfrom, hne, hleast⟩
    · obtain ⟨other, hother, hle⟩ := h since hfrom hne
      rw [hother, List.le_antisymm (hleast other (Or.inr hother) (hb other hother)) hle]
    · exact hfrom
  · intro hfrom
    refine ⟨Or.inr hfrom, hb since hfrom, fun other hother hne => ?_⟩
    rcases hother with hleft | hright
    · obtain ⟨last, hlast, hle⟩ := h other hleft hne
      rwa [Option.some.inj (hfrom.symm.trans hlast)]
    · rw [Option.some.inj (hfrom.symm.trans hright)]
      exact List.le_refl _

/-! ### The union of two histories -/

/-- One operation names one entry. -/
def Unambiguous (entries : List Entry) : Prop :=
  ∀ a ∈ entries, ∀ b ∈ entries, a.operationId = b.operationId → a = b

theorem mem_ofList_keys (entries : List Entry) : ∀ entry ∈ entries,
    ∃ row ∈ (Table.ofList (entries.map fun entry => (entry.operationId, entry)) : Entries Text Entry).rows,
      row.1 = entry.operationId := by
  unfold Table.ofList
  suffices hfold : ∀ (rest : List Entry) (held : Entries Text Entry) (id : Text),
      ((∃ row ∈ held.rows, row.1 = id) ∨ ∃ entry ∈ rest, entry.operationId = id) →
        ∃ row ∈ ((rest.map fun entry => (entry.operationId, entry)).foldl Table.set held).rows, row.1 = id from
    fun entry hentry => hfold entries Table.empty entry.operationId (Or.inr ⟨entry, hentry, rfl⟩)
  intro rest
  induction rest with
  | nil =>
    rintro held id (hheld | ⟨entry, hentry, -⟩)
    · exact hheld
    · exact absurd hentry List.not_mem_nil
  | cons first rest ih =>
    intro held id hid
    rw [List.map_cons, List.foldl_cons]
    apply ih
    by_cases hsame : first.operationId = id
    · exact Or.inl ⟨_, Table.mem_set.mpr (Or.inl rfl), hsame⟩
    · rcases hid with ⟨row, hrow, hkey⟩ | ⟨entry, hentry, hid⟩
      · exact Or.inl ⟨row, Table.mem_set.mpr (Or.inr ⟨hrow, fun h => hsame (h.symm.trans hkey)⟩), hkey⟩
      · rcases List.mem_cons.mp hentry with rfl | hrest
        · exact absurd hid hsame
        · exact Or.inr ⟨entry, hrest, hid⟩

theorem mem_byOperation {entries : List Entry} (h : Unambiguous entries) {entry : Entry} :
    entry ∈ byOperation entries ↔ entry ∈ entries := by
  refine ⟨mem_of_byOperation, fun hentry => ?_⟩
  obtain ⟨row, hrow, hkey⟩ := mem_ofList_keys entries entry hentry
  obtain ⟨hmem, hown⟩ := ofList_own entries row hrow
  have hsame := h row.2 hmem entry hentry (hown.symm.trans hkey)
  exact List.mem_map.mpr ⟨row, hrow, hsame⟩

variable (localeCompare) in
/-- No two entries tie. -/
def Untied (entries : List Entry) : Prop := ∀ a ∈ entries, ∀ b ∈ entries, entryOrder localeCompare a b = 0 → a = b

theorem consistent_entryOrder (h : Consistent localeCompare) : Consistent (entryOrder localeCompare) where
  antisymm a b := by
    have hlocale := h.antisymm a.at b.at
    unfold entryOrder
    split_ifs <;> omega
  trans a b c hab hbc := by
    have hlocale := h.trans a.at b.at c.at
    unfold entryOrder at *
    split_ifs at * <;> omega

/-- The sorted entries of a merge. -/
def united (localeCompare : Text → Text → Int) (entries : List Entry) : List Entry :=
  (byOperation entries).mergeSort fun a b => entryOrder localeCompare a b ≤ 0

theorem united_inOrder (h : Consistent localeCompare) {entries : List Entry} (huntied : Untied localeCompare entries) :
    InOrder (entryOrder localeCompare) (united localeCompare entries) := by
  apply (consistent_entryOrder h).sort_inOrder
  apply (List.pairwise_map.mp (byOperation_distinct entries)).imp_of_mem
  intro a b ha hb hne htie
  exact hne (congrArg Entry.operationId (huntied a (mem_of_byOperation ha) b (mem_of_byOperation hb) htie))

theorem mem_united {entries : List Entry} (h : Unambiguous entries) {entry : Entry} :
    entry ∈ united localeCompare entries ↔ entry ∈ entries := by
  unfold united
  rw [List.mem_mergeSort, mem_byOperation h]

theorem mergeRows_eq (sha : Text) (old row : Recovery) : mergeRows localeCompare sha old row =
    { sha := sha
      failures := max old.failures row.failures
      totalAttempts := max (max old.totalAttempts row.totalAttempts)
        (united localeCompare (old.history ++ row.history)).length
      app403Since := earliest old.app403Since row.app403Since
      history := (united localeCompare (old.history ++ row.history)).rtake HISTORY_LIMIT } := by
  unfold mergeRows united
  rw [List.length_mergeSort]

/-- **The union of two histories**, when it is known as a list in order. -/
theorem united_eq (h : Consistent localeCompare) {entries sorted : List Entry} (hunambiguous : Unambiguous entries)
    (hsorted : InOrder (entryOrder localeCompare) sorted) (hmem : ∀ entry, entry ∈ sorted ↔ entry ∈ entries) :
    united localeCompare entries = sorted := by
  have hcompare := (consistent_entryOrder h).comparator
  have huntied : Untied localeCompare entries := by
    intro a ha b hb htie
    have hsign := (consistent_entryOrder h).antisymm b a
    rcases hsorted.trichotomy ((hmem a).mpr ha) ((hmem b).mpr hb) with hless | hsame | hless
    · omega
    · exact hsame
    · omega
  exact (united_inOrder h huntied).eq_of_mem_iff hcompare hsorted fun entry => (mem_united hunambiguous).trans (hmem entry).symm

/-! ### Whole histories -/

variable (dates : Dates)

variable (localeCompare) in
/-- A valid history, whose entries are in strict order. -/
structure Whole (value : Option Heads) : Prop where
  valid : isPublicationRecovery dates value = true
  inOrder : ∀ sha row, lookup value sha = some row → InOrder (entryOrder localeCompare) row.history

variable (localeCompare) in
/-- Two histories name their operations alike, and two entries of one time are one. -/
structure Agree (a b : Option Heads) : Prop where
  named : ∀ sha old row, lookup a sha = some old → lookup b sha = some row →
    ∀ entry ∈ old.history, ∀ other ∈ row.history, entry.operationId = other.operationId → entry = other
  untied : ∀ sha old row, lookup a sha = some old → lookup b sha = some row →
    ∀ entry ∈ old.history, ∀ other ∈ row.history, entryOrder localeCompare entry other = 0 → entry = other

variable {dates}

theorem lookup_valid {value : Option Heads} (h : isPublicationRecovery dates value = true) {sha : Text} {row : Recovery}
    (hrow : lookup value sha = some row) : ValidRecovery dates sha row := valid_at? h hrow

theorem unambiguous_append {old row : List Entry} (hold : (old.map Entry.operationId).Nodup)
    (hrow : (row.map Entry.operationId).Nodup)
    (hnamed : ∀ entry ∈ old, ∀ other ∈ row, entry.operationId = other.operationId → entry = other) :
    Unambiguous (old ++ row) := by
  intro a ha b hb hid
  rcases List.mem_append.mp ha with haold | harow
  · rcases List.mem_append.mp hb with hbold | hbrow
    · exact List.inj_on_of_nodup_map hold haold hbold hid
    · exact hnamed a haold b hbrow hid
  · rcases List.mem_append.mp hb with hbold | hbrow
    · exact (hnamed b hbold a harow hid.symm).symm
    · exact List.inj_on_of_nodup_map hrow harow hbrow hid

theorem dated (hempty : dates.parse [] = none) {sha : Text} {row : Recovery} (h : ValidRecovery dates sha row) :
    ∀ since, row.app403Since = some since → since ≠ [] := by
  rintro since hsince rfl
  have hparses := h.since [] hsince
  rw [hempty] at hparses
  contradiction

/-- A merge with itself changes nothing. -/
theorem mergeRows_self (hlocale : Consistent localeCompare) (hempty : dates.parse [] = none) {sha : Text}
    {row : Recovery} (h : ValidRecovery dates sha row) (horder : InOrder (entryOrder localeCompare) row.history) :
    mergeRows localeCompare sha row row = row := by
  have hunited : united localeCompare (row.history ++ row.history) = row.history := by
    apply united_eq hlocale _ horder
    · simp
    · exact unambiguous_append h.distinct h.distinct fun a ha b hb => List.inj_on_of_nodup_map h.distinct ha hb
  rw [mergeRows_eq, hunited, max_self, max_self, max_eq_left h.recorded,
    earliest_eq_right (dated hempty h) fun since hsince _ => ⟨since, hsince, List.le_refl _⟩]
  have hlength := h.length
  have hkept : row.history.rtake HISTORY_LIMIT = row.history := by
    rw [List.rtake, Nat.sub_eq_zero_of_le hlength, List.drop_zero]
  rw [hkept, ← h.own]

/-- The side does not matter. -/
theorem mergeRows_comm (hlocale : Consistent localeCompare) {sha : Text} {old row : Recovery}
    (hold : ValidRecovery dates sha old) (hrow : ValidRecovery dates sha row)
    (horder : InOrder (entryOrder localeCompare) old.history) (horder' : InOrder (entryOrder localeCompare) row.history)
    (hnamed : ∀ entry ∈ old.history, ∀ other ∈ row.history, entry.operationId = other.operationId → entry = other)
    (huntied : ∀ entry ∈ old.history, ∀ other ∈ row.history, entryOrder localeCompare entry other = 0 → entry = other) :
    mergeRows localeCompare sha old row = mergeRows localeCompare sha row old := by
  have hsides : united localeCompare (old.history ++ row.history) = united localeCompare (row.history ++ old.history) := by
    have hsign := consistent_entryOrder hlocale
    apply united_eq hlocale (unambiguous_append hold.distinct hrow.distinct hnamed)
    · apply united_inOrder hlocale
      have hself : ∀ {list : List Entry}, InOrder (entryOrder localeCompare) list → Untied localeCompare list := by
        intro list hlist a ha b hb htie
        have hab := hsign.antisymm b a
        rcases hlist.trichotomy ha hb with hless | hsame | hless
        · omega
        · exact hsame
        · omega
      intro a ha b hb htie
      have htie' : entryOrder localeCompare b a = 0 := by
        have hab := hsign.antisymm a b
        have hba := hsign.antisymm b a
        omega
      rcases List.mem_append.mp ha with harow | haold
      · rcases List.mem_append.mp hb with hbrow | hbold
        · exact hself horder' a harow b hbrow htie
        · exact (huntied b hbold a harow htie').symm
      · rcases List.mem_append.mp hb with hbrow | hbold
        · exact huntied a haold b hbrow htie
        · exact hself horder a haold b hbold htie
    · intro entry
      rw [mem_united (unambiguous_append hrow.distinct hold.distinct fun a ha b hb hid =>
        (hnamed b hb a ha hid.symm).symm), List.mem_append, List.mem_append, or_comm]
  rw [mergeRows_eq, mergeRows_eq, hsides, earliest_comm, max_comm old.failures, max_comm old.totalAttempts]

/-! ### What a lane becomes -/

/-- A call of `recordPublicationFailure`. -/
structure Call where
  operation : Operation
  journal : List JournalEntry
  publicationRetry : Option PublicationRetry
  input : FailureInput
  delays : List Int

variable (dates) in
def recordCall (held : Option Heads) (call : Call) : Option Heads × Except Thrown Entry :=
  let (pipeline, answer) := recordPublicationFailure ⟨held, call.operation, call.journal⟩ call.publicationRetry
    call.input dates call.delays
  (pipeline.publicationRecovery, answer)

variable (localeCompare) in
/-- The call is about an operation that the history has, or it is later than the history. -/
def InTurn (held : Option Heads) (call : Call) : Prop :=
  ∀ row, lookup held call.operation.sha = some row →
    (∃ entry ∈ row.history, entry.operationId = call.operation.id) ∨
      ∀ entry ∈ row.history, entry.epoch < call.input.epoch ∨
        (entry.epoch = call.input.epoch ∧ localeCompare entry.at call.input.at < 0)

variable (localeCompare) in
/-- What a row becomes. -/
structure Grown (old new : Recovery) (later : List Entry) : Prop where
  sha : new.sha = old.sha
  failures : old.failures ≤ new.failures
  attempts : old.totalAttempts + later.length ≤ new.totalAttempts
  history : new.history = (old.history ++ later).rtake HISTORY_LIMIT
  inOrder : InOrder (entryOrder localeCompare) (old.history ++ later)
  since : ∀ since, old.app403Since = some since → since ≠ [] →
    ∃ other, new.app403Since = some other ∧ other ≠ [] ∧ other ≤ since

theorem failures_le_failuresOf (pipeline : Pipeline) (publicationRetry : Option PublicationRetry) (input : FailureInput)
    (delays : List Int) : (startRecovery pipeline publicationRetry).failures ≤
      failuresOf pipeline publicationRetry input delays := by
  unfold failuresOf
  dsimp only
  split <;> split <;> omega

/-- The time of the first refusal only gets earlier. -/
theorem app403SinceOf_le (pipeline : Pipeline) (publicationRetry : Option PublicationRetry) (input : FailureInput)
    {since : Text} (h : (startRecovery pipeline publicationRetry).app403Since = some since) (hne : since ≠ []) :
    ∃ other, app403SinceOf pipeline publicationRetry input = some other ∧ other ≠ [] ∧ other ≤ since := by
  unfold app403SinceOf
  dsimp only
  split
  · obtain ⟨other, hearliest⟩ := exists_earliest (b := some (observedAt pipeline input)) (Or.inl h) hne
    obtain ⟨-, hother, hleast⟩ := earliest_eq_some.mp hearliest
    exact ⟨other, hearliest, hother, hleast since (Or.inl h) hne⟩
  · exact ⟨since, h, hne, List.le_refl _⟩

/-- A failure was counted: no counter falls, and the first refusal is not later. -/
structure Counted (row next : Recovery) : Prop where
  sha : next.sha = row.sha
  failures : row.failures ≤ next.failures
  since : ∀ since, row.app403Since = some since → since ≠ [] →
    ∃ other, next.app403Since = some other ∧ other ≠ [] ∧ other ≤ since

/-- What a call does to the row of its head. -/
inductive RowStep (call : Call) (row next : Recovery) : Prop
  | kept (same : next = row)
  /-- The call threw after the failure was counted. -/
  | thrown (counted : Counted row next) (history : next.history = row.history)
    (attempts : next.totalAttempts = row.totalAttempts)
  | recorded (fresh : ∀ entry ∈ row.history, entry.operationId ≠ call.operation.id) (counted : Counted row next)
    (entry : Entry) (epoch : entry.epoch = call.input.epoch) (time : entry.at = call.input.at)
    (history : next.history = (row.history ++ [entry]).rtake HISTORY_LIMIT)
    (attempts : next.totalAttempts = row.totalAttempts + 1)

/-- **One call** on the row of its head. -/
theorem recordCall_lookup {held : Option Heads} {call : Call} {row : Recovery}
    (hrow : lookup held call.operation.sha = some row) :
    ∃ next, lookup (recordCall dates held call).1 call.operation.sha = some next ∧ RowStep call row next := by
  have hstart : startRecovery ⟨held, call.operation, call.journal⟩ call.publicationRetry = row := by
    unfold startRecovery
    rw [show (held.getD Table.empty).at? call.operation.sha = some row from hrow, Option.getD_some]
  have hput : ∀ next : Recovery,
      lookup (some ((held.getD Table.empty).set (call.operation.sha, next))) call.operation.sha = some next := by
    intro next
    unfold lookup
    rw [Option.getD_some, Entries.at?_set, if_pos rfl]
  unfold recordCall recordPublicationFailure
  dsimp only
  split
  · exact ⟨row, hrow, .kept rfl⟩
  · split
    · next recorded hfound =>
      rw [hstart] at hfound ⊢
      exact ⟨row, hput row, .kept rfl⟩
    · next hnone =>
      have hcounted : Counted row { row with
          app403Since := app403SinceOf ⟨held, call.operation, call.journal⟩ call.publicationRetry call.input
          failures := failuresOf ⟨held, call.operation, call.journal⟩ call.publicationRetry call.input call.delays } := by
        refine ⟨rfl, ?_, fun since hsince hne => ?_⟩
        · rw [← hstart]
          exact failures_le_failuresOf _ _ _ _
        · rw [← hstart] at hsince
          exact app403SinceOf_le _ _ _ hsince hne
      rw [hstart] at hnone ⊢
      split
      · exact ⟨_, hput _, .thrown hcounted rfl rfl⟩
      · next retryAt hretry =>
        refine ⟨_, hput _, .recorded (fun entry hentry hid => ?_) ⟨hcounted.sha, hcounted.failures, hcounted.since⟩
          _ rfl rfl rfl rfl⟩
        exact absurd hid (by simpa using List.find?_eq_none.mp hnone entry hentry)

theorem recordCall_other {held : Option Heads} {call : Call} {sha : Text} (hne : sha ≠ call.operation.sha) :
    lookup (recordCall dates held call).1 sha = lookup held sha := by
  have hput : ∀ next : Recovery,
      lookup (some ((held.getD Table.empty).set (call.operation.sha, next))) sha = lookup held sha := by
    intro next
    unfold lookup
    rw [Option.getD_some, Entries.at?_set, if_neg hne]
  unfold recordCall recordPublicationFailure
  dsimp only
  split
  · exact rfl
  · split
    · exact hput _
    · split
      · exact hput _
      · exact hput _

theorem recordCall_isSome {held : Option Heads} {call : Call} (h : held.isSome = true) :
    (recordCall dates held call).1.isSome = true := by
  unfold recordCall recordPublicationFailure
  dsimp only
  split
  · exact h
  · split
    · exact rfl
    · split
      · exact rfl
      · exact rfl

/-- A row that a call in turn changes grows. -/
theorem Grown.step (hlocale : Consistent localeCompare) {held : Option Heads} {call : Call} {old row next : Recovery}
    {later : List Entry} (h : Grown localeCompare old row later) (hrow : lookup held call.operation.sha = some row)
    (hturn : InTurn localeCompare held call) (hstep : RowStep call row next) :
    ∃ later, Grown localeCompare old next later := by
  have hsince : Counted row next → ∀ since, old.app403Since = some since → since ≠ [] →
      ∃ other, next.app403Since = some other ∧ other ≠ [] ∧ other ≤ since := by
    intro hcounted since hsince hne
    obtain ⟨middle, hmiddle, hmiddle', hle⟩ := h.since since hsince hne
    obtain ⟨other, hother, hother', hle'⟩ := hcounted.since middle hmiddle hmiddle'
    exact ⟨other, hother, hother', List.le_trans hle' hle⟩
  cases hstep with
  | kept same => exact ⟨later, same ▸ h⟩
  | thrown counted history attempts =>
    exact ⟨later, counted.sha.trans h.sha, h.failures.trans counted.failures, attempts ▸ h.attempts,
      history.trans h.history, h.inOrder, hsince counted⟩
  | recorded fresh counted entry epoch time history attempts =>
    refine ⟨later ++ [entry], counted.sha.trans h.sha, h.failures.trans counted.failures, ?_, ?_, ?_, hsince counted⟩
    · have hattempts := h.attempts
      rw [List.length_append, List.length_singleton, attempts]
      omega
    · rw [history, h.history, show HISTORY_LIMIT = (HISTORY_LIMIT - 1) + 1 from rfl, List.rtake_concat_succ,
        ← List.append_assoc, List.rtake_concat_succ, rtake_rtake _ (Nat.le_succ _)]
    · have hlast : ∀ other ∈ (old.history ++ later).rtake HISTORY_LIMIT, entryOrder localeCompare other entry < 0 := by
        intro other hother
        rw [← h.history] at hother
        rcases hturn row hrow with ⟨found, hfound, hid⟩ | hlater
        · exact absurd hid (fresh found hfound)
        · have hless := hlater other hother
          rw [← epoch, ← time] at hless
          unfold entryOrder
          split_ifs <;> omega
      rw [← List.append_assoc]
      refine List.pairwise_append.mpr ⟨h.inOrder, List.pairwise_singleton _ _, fun other hother last hlast' => ?_⟩
      rw [List.mem_singleton.mp hlast']
      exact h.inOrder.before_of_rtake (consistent_entryOrder hlocale).comparator (by decide) hlast other hother

variable (localeCompare) in
/-- Each row of a lane has grown. -/
def Became (older held : Option Heads) : Prop :=
  (older.isSome = true → held.isSome = true) ∧ ∀ sha old, lookup older sha = some old →
    ∃ new later, lookup held sha = some new ∧ Grown localeCompare old new later

theorem Became.step (hlocale : Consistent localeCompare) {older held : Option Heads} {call : Call}
    (h : Became localeCompare older held) (hturn : InTurn localeCompare held call) :
    Became localeCompare older (recordCall dates held call).1 := by
  refine ⟨fun hsome => recordCall_isSome (h.1 hsome), fun sha old hold => ?_⟩
  obtain ⟨new, later, hnew, hgrown⟩ := h.2 sha old hold
  by_cases hsha : sha = call.operation.sha
  · subst hsha
    obtain ⟨next, hnext, hstep⟩ := @recordCall_lookup dates _ _ _ hnew
    obtain ⟨more, hmore⟩ := hgrown.step hlocale hnew hturn hstep
    exact ⟨next, more, hnext, hmore⟩
  · exact ⟨new, later, (recordCall_other hsha).trans hnew, hgrown⟩

theorem became_after (hlocale : Consistent localeCompare) {older : Option Heads} (h : Whole localeCompare dates older)
    {calls : List Call} (hcalls : EveryCall (recordCall dates) (InTurn localeCompare) older calls) :
    Became localeCompare older (after (recordCall dates) older calls) := by
  refine after_of_everyCall (P := Became localeCompare older) (fun _ _ hs hturn => hs.step hlocale hturn) ?_ hcalls
  refine ⟨id, fun sha old hold => ⟨old, [], hold, rfl, le_refl _, ?_, ?_, ?_, fun since hsince hne => ?_⟩⟩
  · exact (Int.add_zero _).le
  · rw [List.append_nil, List.rtake, Nat.sub_eq_zero_of_le (lookup_valid h.valid hold).length, List.drop_zero]
  · rw [List.append_nil]
    exact h.inOrder sha old hold
  · exact ⟨since, hsince, hne, List.le_refl _⟩

/-- The sorted union of a copy and what it became. -/
theorem united_of_grown (hlocale : Consistent localeCompare) {old new : Recovery} {later entries : List Entry}
    (h : Grown localeCompare old new later) (hunambiguous : Unambiguous entries)
    (hentries : ∀ entry, entry ∈ entries ↔ entry ∈ old.history ∨ entry ∈ new.history) :
    (united localeCompare entries).rtake HISTORY_LIMIT = new.history ∧
      (united localeCompare entries).length ≤ old.history.length + later.length := by
  by_cases hshort : later.length ≤ HISTORY_LIMIT
  · have hunited : united localeCompare entries = old.history ++ later := by
      apply united_eq hlocale hunambiguous h.inOrder
      intro entry
      rw [hentries, h.history, List.mem_append]
      apply or_congr_right'
      intro hold
      constructor
      · intro hlater
        rw [List.rtake, List.drop_append, List.mem_append]
        right
        rwa [show (old.history ++ later).length - HISTORY_LIMIT - old.history.length = 0 by
          rw [List.length_append]; omega, List.drop_zero]
      · intro hkept
        exact (List.mem_append.mp (List.mem_of_mem_drop hkept)).resolve_left hold
    rw [hunited, h.history]
    exact ⟨rfl, (List.length_append ..).le⟩
  · have hnew : new.history = later.rtake HISTORY_LIMIT := by
      rw [h.history, List.rtake, List.rtake, List.length_append,
        show old.history.length + later.length - HISTORY_LIMIT = old.history.length + (later.length - HISTORY_LIMIT) by omega,
        List.drop_length_add_append]
    have hunited : united localeCompare entries = old.history ++ new.history := by
      apply united_eq hlocale hunambiguous
      · rw [hnew]
        exact h.inOrder.sublist ((List.Sublist.refl _).append (List.drop_sublist _ _))
      · intro entry
        rw [hentries, List.mem_append]
    have hlength : new.history.length = HISTORY_LIMIT := by
      rw [hnew, List.rtake, List.length_drop]
      omega
    rw [hunited, List.length_append]
    refine ⟨?_, by omega⟩
    rw [List.rtake, List.length_append, hlength, Nat.add_sub_cancel, List.drop_left]

/-- **A copy is absorbed** by what it became, from either side. -/
theorem mergeRows_grown (hlocale : Consistent localeCompare) (hempty : dates.parse [] = none) {sha : Text}
    {old new : Recovery} {later : List Entry} (h : Grown localeCompare old new later)
    (hold : ValidRecovery dates sha old) (hnew : ValidRecovery dates sha new)
    (hnamed : ∀ entry ∈ old.history, ∀ other ∈ new.history, entry.operationId = other.operationId → entry = other) :
    mergeRows localeCompare sha old new = new ∧ mergeRows localeCompare sha new old = new := by
  have hsince : earliest old.app403Since new.app403Since = new.app403Since := by
    refine earliest_eq_right (dated hempty hnew) fun since hsince hne => ?_
    obtain ⟨other, hother, -, hle⟩ := h.since since hsince hne
    exact ⟨other, hother, hle⟩
  have hcount : ((old.history.length + later.length : ℕ) : Int) ≤ new.totalAttempts := by
    have hrecorded := hold.recorded
    have hattempts := h.attempts
    omega
  have hattempts : old.totalAttempts ≤ new.totalAttempts := by
    have hlater := h.attempts
    omega
  have hleft := united_of_grown hlocale h (unambiguous_append hold.distinct hnew.distinct hnamed) fun entry => List.mem_append
  have hright := united_of_grown hlocale h (unambiguous_append hnew.distinct hold.distinct
    fun a ha b hb hid => (hnamed b hb a ha hid.symm).symm) fun entry => List.mem_append.trans or_comm
  constructor
  · rw [mergeRows_eq, hleft.1, hsince, max_eq_right h.failures, max_eq_right hattempts,
      max_eq_left ((Int.ofNat_le.mpr hleft.2).trans hcount), ← hnew.own]
  · rw [mergeRows_eq, hright.1, earliest_comm, hsince, max_eq_left h.failures, max_eq_left hattempts,
      max_eq_left ((Int.ofNat_le.mpr hright.2).trans hcount), ← hnew.own]

/-! ### The join -/

/-- Merging with itself changes nothing. -/
theorem merge_self (hlocale : Consistent localeCompare) (hempty : dates.parse [] = none) {a : Option Heads}
    (h : Whole localeCompare dates a) : SameHeads (mergePublicationRecovery localeCompare a a) a := by
  refine ⟨by rw [isSome_merge, Bool.or_self], fun sha => ?_⟩
  rw [lookup_merge]
  cases hrow : lookup a sha with
  | none => exact rfl
  | some row =>
    exact congrArg some (mergeRows_self hlocale hempty (lookup_valid h.valid hrow) (h.inOrder sha row hrow))

/-- The order of the sides does not matter. -/
theorem merge_swap (hlocale : Consistent localeCompare) {a b : Option Heads} (ha : Whole localeCompare dates a)
    (hb : Whole localeCompare dates b) (hagree : Agree localeCompare a b) :
    SameHeads (mergePublicationRecovery localeCompare a b) (mergePublicationRecovery localeCompare b a) := by
  refine ⟨by rw [isSome_merge, isSome_merge, Bool.or_comm], fun sha => ?_⟩
  rw [lookup_merge, lookup_merge]
  cases hold : lookup a sha with
  | none =>
    cases hrow : lookup b sha with
    | none => exact rfl
    | some row => exact rfl
  | some old =>
    cases hrow : lookup b sha with
    | none => exact rfl
    | some row =>
      exact congrArg some (mergeRows_comm hlocale (lookup_valid ha.valid hold) (lookup_valid hb.valid hrow)
        (ha.inOrder sha old hold) (hb.inOrder sha row hrow) (hagree.named sha old row hold hrow)
        (hagree.untied sha old row hold hrow))

/-- Whatever a side has, the merge has at least that. -/
theorem merge_bounds (a b : Option Heads) {sha : Text} {side : Recovery}
    (hside : lookup a sha = some side ∨ lookup b sha = some side) :
    ∃ merged, lookup (mergePublicationRecovery localeCompare a b) sha = some merged ∧
      side.failures ≤ merged.failures ∧ side.totalAttempts ≤ merged.totalAttempts := by
  rw [lookup_merge]
  cases hrow : lookup b sha with
  | none =>
    rcases hside with hold | hnone
    · exact ⟨side, hold, le_refl _, le_refl _⟩
    · exact absurd (hrow.symm.trans hnone) nofun
  | some row =>
    cases hold : lookup a sha with
    | none =>
      rcases hside with hnone | hrow'
      · exact absurd (hold.symm.trans hnone) nofun
      · obtain rfl := Option.some.inj (hrow.symm.trans hrow')
        exact ⟨row, rfl, le_refl _, le_refl _⟩
    | some old =>
      refine ⟨_, rfl, ?_⟩
      rcases hside with hold' | hrow'
      · obtain rfl := Option.some.inj (hold.symm.trans hold')
        exact ⟨le_max_left _ _, (le_max_left _ _).trans (le_max_left _ _)⟩
      · obtain rfl := Option.some.inj (hrow.symm.trans hrow')
        exact ⟨le_max_right _ _, (le_max_right _ _).trans (le_max_left _ _)⟩

/-- The first refusal is the earliest one of the sides. -/
theorem merge_since (hempty : dates.parse [] = none) {a b : Option Heads} (ha : Whole localeCompare dates a)
    (hb : Whole localeCompare dates b) {sha : Text} {merged : Recovery}
    (hmerged : lookup (mergePublicationRecovery localeCompare a b) sha = some merged) (since : Text) :
    merged.app403Since = some since ↔
      (∃ side, (lookup a sha = some side ∨ lookup b sha = some side) ∧ side.app403Since = some since) ∧
        ∀ side other, (lookup a sha = some side ∨ lookup b sha = some side) → side.app403Since = some other →
          since ≤ other := by
  have halone : ∀ row : Recovery, (∀ side, (lookup a sha = some side ∨ lookup b sha = some side) ↔ side = row) →
      (row.app403Since = some since ↔
        (∃ side, (lookup a sha = some side ∨ lookup b sha = some side) ∧ side.app403Since = some since) ∧
          ∀ side other, (lookup a sha = some side ∨ lookup b sha = some side) → side.app403Since = some other →
            since ≤ other) := by
    intro row hside
    simp only [hside, exists_eq_left]
    refine ⟨fun h => ⟨h, ?_⟩, And.left⟩
    rintro side other rfl hother
    rw [Option.some.inj (h.symm.trans hother)]
    exact List.le_refl _
  rw [lookup_merge] at hmerged
  cases hrow : lookup b sha with
  | none =>
    rw [hrow] at hmerged halone
    apply halone
    intro side
    rw [show lookup a sha = some merged from hmerged, Option.some.injEq, or_iff_left nofun, eq_comm]
  | some row =>
    rw [hrow] at hmerged halone
    obtain rfl := Option.some.inj hmerged
    cases hold : lookup a sha with
    | none =>
      rw [hold] at halone
      apply halone
      intro side
      rw [joined, Option.some.injEq, or_iff_right nofun, eq_comm]
    | some old =>
      rw [joined, mergeRows_eq, earliest_eq_some]
      have hdatedOld := dated hempty (lookup_valid ha.valid hold)
      have hdatedRow := dated hempty (lookup_valid hb.valid hrow)
      constructor
      · rintro ⟨hfrom, -, hleast⟩
        constructor
        · rcases hfrom with hfrom | hfrom
          · exact ⟨old, Or.inl rfl, hfrom⟩
          · exact ⟨row, Or.inr rfl, hfrom⟩
        · rintro side other (hside | hside) hother
          · obtain rfl := Option.some.inj hside
            exact hleast other (Or.inl hother) (hdatedOld other hother)
          · obtain rfl := Option.some.inj hside
            exact hleast other (Or.inr hother) (hdatedRow other hother)
      · rintro ⟨⟨side, hside, hfrom⟩, hleast⟩
        have hfrom' : old.app403Since = some since ∨ row.app403Since = some since := by
          rcases hside with hside | hside
          · exact Or.inl (Option.some.inj hside ▸ hfrom)
          · exact Or.inr (Option.some.inj hside ▸ hfrom)
        refine ⟨hfrom', ?_, fun other hother _ => ?_⟩
        · exact hfrom'.elim (hdatedOld since) (hdatedRow since)
        · rcases hother with hother | hother
          · exact hleast old other (Or.inl rfl) hother
          · exact hleast row other (Or.inr rfl) hother

/-- **Merging publication histories is a join**, where no two failures of one head tie. -/
theorem merge_histories_join (hlocale : Consistent localeCompare) (hempty : dates.parse [] = none) :
    (∀ a, Whole localeCompare dates a → SameHeads (mergePublicationRecovery localeCompare a a) a) ∧
    (∀ a b, Whole localeCompare dates a → Whole localeCompare dates b → Agree localeCompare a b →
      SameHeads (mergePublicationRecovery localeCompare a b) (mergePublicationRecovery localeCompare b a)) ∧
    (∀ a b sha side, (lookup a sha = some side ∨ lookup b sha = some side) →
      ∃ merged, lookup (mergePublicationRecovery localeCompare a b) sha = some merged ∧
        side.failures ≤ merged.failures ∧ side.totalAttempts ≤ merged.totalAttempts) ∧
    (∀ a b, Whole localeCompare dates a → Whole localeCompare dates b → ∀ sha merged,
      lookup (mergePublicationRecovery localeCompare a b) sha = some merged → ∀ since,
        merged.app403Since = some since ↔
          (∃ side, (lookup a sha = some side ∨ lookup b sha = some side) ∧ side.app403Since = some since) ∧
            ∀ side other, (lookup a sha = some side ∨ lookup b sha = some side) → side.app403Since = some other →
              since ≤ other) ∧
    ∀ older calls, Whole localeCompare dates older →
      EveryCall (recordCall dates) (InTurn localeCompare) older calls →
        let newer := after (recordCall dates) older calls
        isPublicationRecovery dates newer = true →
          (∀ sha old row, lookup older sha = some old → lookup newer sha = some row →
            ∀ entry ∈ old.history, ∀ other ∈ row.history, entry.operationId = other.operationId → entry = other) →
          SameHeads (mergePublicationRecovery localeCompare older newer) newer ∧
            SameHeads (mergePublicationRecovery localeCompare newer older) newer := by
  refine ⟨fun a ha => merge_self hlocale hempty ha, fun a b ha hb hagree => merge_swap hlocale ha hb hagree,
    fun a b sha side hside => merge_bounds a b hside, fun a b ha hb sha merged hmerged since => ?_, ?_⟩
  · exact merge_since hempty ha hb hmerged since
  · intro older calls holder hcalls newer hnewer hnamed
    obtain ⟨hsome, hbecame⟩ := became_after hlocale holder hcalls
    have hor : (older.isSome || newer.isSome) = newer.isSome := by
      cases holderSome : older.isSome with
      | true => rw [hsome holderSome, Bool.or_self]
      | false => rw [Bool.false_or]
    refine ⟨⟨by rw [isSome_merge, hor], fun sha => ?_⟩, by rw [isSome_merge, Bool.or_comm, hor], fun sha => ?_⟩
    · rw [lookup_merge]
      cases hold : lookup older sha with
      | none =>
          cases hrow : lookup newer sha with
          | none => exact rfl
          | some row => exact rfl
      | some old =>
          obtain ⟨row, later, hrow, hgrown⟩ := hbecame sha old hold
          rw [hrow]
          exact congrArg some (mergeRows_grown hlocale hempty hgrown (lookup_valid holder.valid hold)
            (lookup_valid hnewer hrow) (hnamed sha old row hold hrow)).1
    · rw [lookup_merge]
      cases hold : lookup older sha with
      | none => exact rfl
      | some old =>
          obtain ⟨row, later, hrow, hgrown⟩ := hbecame sha old hold
          rw [hrow]
          exact congrArg some (mergeRows_grown hlocale hempty hgrown (lookup_valid holder.valid hold)
            (lookup_valid hnewer hrow) (hnamed sha old row hold hrow)).2

/-! ### Two failures of one time -/

/-- The comparison of code units. -/
def compareUnits (a b : Text) : Int := if a = b then 0 else if a ≤ b then -1 else 1

theorem consistent_compareUnits : Consistent compareUnits where
  antisymm a b := by
    unfold compareUnits
    by_cases hsame : a = b
    · simp [hsame]
    · rw [if_neg hsame, if_neg (Ne.symm hsame)]
      by_cases hab : a ≤ b
      · have hba : ¬b ≤ a := fun h => hsame (List.le_antisymm hab h)
        simp [hab, hba]
      · have hba := (List.le_total a b).resolve_left hab
        simp [hab, hba]
  trans a b c hab hbc := by
    have hle : ∀ x y : Text, compareUnits x y ≤ 0 ↔ x ≤ y := by
      intro x y
      unfold compareUnits
      by_cases hsame : x = y
      · simp [hsame]
      · by_cases hxy : x ≤ y
        · simp [hsame, hxy]
        · simp [hsame, hxy]
    rw [hle] at hab hbc ⊢
    exact List.le_trans hab hbc

/-- A failure at the time of the other examples. -/
def failureEntry (operationId : Text) (epoch : Int) : Entry :=
  ⟨operationId, epoch, units "2026-10-16T10:21:00.000Z", .interrupted, units "publisher stopped", none⟩

def failureRow (operationId : Text) : Recovery :=
  ⟨List.replicate 40 0x61, 1, 1, none, [failureEntry operationId 1]⟩

/-- A history of one failure. -/
def oneFailure (operationId : Text) : Option Heads :=
  some (Table.empty.set (List.replicate 40 0x61, failureRow operationId))

theorem lookup_oneFailure {operationId sha : Text} {row : Recovery} (h : lookup (oneFailure operationId) sha = some row) :
    row = failureRow operationId := by
  rcases Table.mem_set.mp (Entries.at?_eq_some.mp h) with hrow | ⟨hrow, -⟩
  · exact (Prod.mk.inj hrow).2
  · exact absurd hrow List.not_mem_nil

theorem whole_oneFailure (operationId : Text) (hvalid : isPublicationRecovery oneDate (oneFailure operationId) = true) :
    Whole compareUnits oneDate (oneFailure operationId) := by
  refine ⟨hvalid, fun sha row hrow => ?_⟩
  rw [lookup_oneFailure hrow]
  exact List.pairwise_singleton _ _

/-- A later failure of the same head. -/
def laterCall : Call where
  operation := ⟨units "operation-2", List.replicate 40 0x61, none, none⟩
  journal := []
  publicationRetry := none
  input := ⟨units "operation-2", 2, units "2026-10-16T10:21:00.000Z", .interrupted, units "publisher stopped", true⟩
  delays := []

theorem merge_histories_join_of_later :
    let newer := after (recordCall oneDate) (oneFailure (units "operation-1")) [laterCall]
    SameHeads (mergePublicationRecovery compareUnits (oneFailure (units "operation-1")) newer) newer := by
  have hwhole := whole_oneFailure (units "operation-1") (by decide +kernel)
  refine ((merge_histories_join consistent_compareUnits (by decide)).2.2.2.2 _ _ hwhole ?_ (by decide +kernel) ?_).1
  · intro front call back hsplit row hrow
    have hfront : front = [] := by
      cases front with
      | nil => rfl
      | cons first rest => simp at hsplit
    subst hfront
    obtain rfl : laterCall = call := (List.cons.inj hsplit).1
    rw [lookup_oneFailure hrow]
    right
    decide
  · have hrows : ((after (recordCall oneDate) (oneFailure (units "operation-1")) [laterCall]).getD Table.empty).rows.all
        (fun head => head.2.history.all fun other =>
          decide (other.operationId = units "operation-1" → other = failureEntry (units "operation-1") 1)) = true := by
      decide +kernel
    intro sha old row hold hrow entry hentry other hother hid
    rw [lookup_oneFailure hold] at hentry
    obtain rfl := List.mem_singleton.mp hentry
    have hhead := List.all_eq_true.mp hrows _ (Entries.at?_eq_some.mp hrow)
    have hsame := List.all_eq_true.mp hhead other hother
    exact (of_decide_eq_true hsame hid.symm).symm

/-- **Two failures of one time** are in the order of the sides. -/
theorem tied_failures_keep_sides :
    isPublicationRecovery oneDate (oneFailure (units "operation-1")) = true ∧
    isPublicationRecovery oneDate (oneFailure (units "operation-2")) = true ∧
    lookup (mergePublicationRecovery compareUnits (oneFailure (units "operation-1")) (oneFailure (units "operation-2")))
        (List.replicate 40 0x61) =
      some ⟨List.replicate 40 0x61, 1, 2, none,
        [failureEntry (units "operation-1") 1, failureEntry (units "operation-2") 1]⟩ ∧
    lookup (mergePublicationRecovery compareUnits (oneFailure (units "operation-2")) (oneFailure (units "operation-1")))
        (List.replicate 40 0x61) =
      some ⟨List.replicate 40 0x61, 1, 2, none,
        [failureEntry (units "operation-2") 1, failureEntry (units "operation-1") 1]⟩ := by
  have hunited : ∀ a b : Text, a ≠ b → united compareUnits [failureEntry a 1, failureEntry b 1] =
      [failureEntry a 1, failureEntry b 1] := by
    intro a b hne
    have hentries : byOperation [failureEntry a 1, failureEntry b 1] = [failureEntry a 1, failureEntry b 1] := by
      unfold byOperation
      rw [Table.rows_ofList (by simpa [failureEntry] using hne)]
      exact rfl
    unfold united
    rw [hentries, List.mergeSort_of_pairwise (by simp [failureEntry, entryOrder, compareUnits])]
  have hmerge : ∀ a b : Text, a ≠ b → lookup (mergePublicationRecovery compareUnits (oneFailure a) (oneFailure b))
      (List.replicate 40 0x61) = some ⟨List.replicate 40 0x61, 1, 2, none, [failureEntry a 1, failureEntry b 1]⟩ := by
    intro a b hne
    have hrow : ∀ id, lookup (oneFailure id) (List.replicate 40 0x61) = some (failureRow id) := fun _ => rfl
    rw [lookup_merge, hrow a, hrow b]
    dsimp only
    rw [joined, mergeRows_eq]
    have hboth : (failureRow a).history ++ (failureRow b).history = [failureEntry a 1, failureEntry b 1] := rfl
    have hnone : earliest none none = none := by decide +kernel
    rw [hboth, hunited a b hne, show earliest (failureRow a).app403Since (failureRow b).app403Since = none from hnone]
    exact rfl
  exact ⟨by decide +kernel, by decide +kernel, hmerge _ _ (by decide), hmerge _ _ (by decide)⟩

end Delegatus.Publication
