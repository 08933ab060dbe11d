import Delegatus.HandoffQueue

/-!
# The migration of the handoff store

A store of an older release has no `conversation_id` and may hold several active rows of one
conversation.  `migrateActiveRows` keeps the last one as the conversation's lease and puts the
others into the history.  A row of the history is never claimed, so the deliveries that waited
in a superseded row wait no more (`migration_drops_delivery`), where an enqueue that replaces a
row carries them over (`replacementDeliveries`).
-/

namespace Delegatus.HandoffQueue

/-- A row of `handoff_rows`; its `conversation_id` is NULL until a migration has written it. -/
structure SavedRow where
  conversation_id : Option String
  value : HandoffRow

/-- The tables of the store, in the order of `row_order`; `operation_id` is the primary key of
both. -/
structure Database where
  rows : List SavedRow
  history : Table (fun row : HandoffRow => row.operationId)
  drainingGenerations : List String
  operation_id : (rows.map fun row => row.value.operationId).Nodup

/-- `load()`. -/
def Database.active (db : Database) : List HandoffRow := db.rows.map SavedRow.value

abbrev ActiveByConversation := Table (fun row : HandoffRow => row.conversationId)

abbrev HistoryByOperation := Table (fun row : HandoffRow => row.operationId)

/-- One turn of the loop over the active rows. -/
def supersede (maps : ActiveByConversation × HistoryByOperation) (row : HandoffRow) :
    ActiveByConversation × HistoryByOperation :=
  (maps.1.set row,
    match maps.1.get? row.conversationId with
    | some previous => maps.2.set previous
    | none => maps.2)

def superseded (history : HistoryByOperation) (active : List HandoffRow) :
    ActiveByConversation × HistoryByOperation :=
  active.foldl supersede (Table.empty, history)

/-- The last active row of a conversation. -/
def lastOf (active : List HandoffRow) (conversation : String) : Option HandoffRow :=
  (active.filter fun row => row.conversationId = conversation).getLast?

/-- A later active row has the same conversation. -/
def Superseded (active : List HandoffRow) (row : HandoffRow) : Prop :=
  row ∈ active ∧ lastOf active row.conversationId ≠ some row

variable {active : List HandoffRow} {row : HandoffRow}

theorem lastOf_concat (active : List HandoffRow) (row : HandoffRow) (conversation : String) :
    lastOf (active ++ [row]) conversation =
      if row.conversationId = conversation then some row else lastOf active conversation := by
  unfold lastOf
  rw [List.filter_append]
  by_cases h : row.conversationId = conversation
  · rw [if_pos h, List.filter_cons_of_pos (by simpa using h), List.filter_nil, List.getLast?_concat]
  · rw [if_neg h, List.filter_cons_of_neg (by simpa using h), List.filter_nil, List.append_nil]

theorem lastOf_some {conversation : String} (h : lastOf active conversation = some row) :
    row ∈ active ∧ row.conversationId = conversation := by
  have hmem := List.mem_filter.mp (List.mem_of_getLast? h)
  exact ⟨hmem.1, of_decide_eq_true hmem.2⟩

theorem exists_lastOf (h : row ∈ active) : ∃ last, lastOf active row.conversationId = some last := by
  have hne : (active.filter fun other => other.conversationId = row.conversationId) ≠ [] :=
    List.ne_nil_of_mem (List.mem_filter.mpr ⟨h, by simp⟩)
  exact ⟨_, List.getLast?_eq_some_getLast hne⟩

/-- The map of the active rows holds the last row of each conversation. -/
theorem get?_superseded (history : HistoryByOperation) (active : List HandoffRow) (conversation : String) :
    (superseded history active).1.get? conversation = lastOf active conversation := by
  induction active using List.reverseRecOn with
  | nil => exact Eq.refl _
  | append_singleton active row ih =>
    rw [superseded, List.foldl_append, lastOf_concat]
    show ((superseded history active).1.set row).get? conversation = _
    rw [Table.get?_set, ih]
    by_cases h : row.conversationId = conversation
    · rw [if_pos h, if_pos h.symm]
    · rw [if_neg h, if_neg (Ne.symm h)]

/-- The superseded rows are in the history, and of the rows before them those of other operations. -/
theorem mem_history_superseded (history : HistoryByOperation)
    (hactive : (active.map fun row => row.operationId).Nodup) :
    row ∈ (superseded history active).2.rows ↔
      Superseded active row ∨
        (row ∈ history.rows ∧ ∀ other, Superseded active other → other.operationId ≠ row.operationId) := by
  induction active using List.reverseRecOn generalizing row with
  | nil => simp [superseded, Superseded]
  | append_singleton active new ih =>
    have hold : (active.map fun row => row.operationId).Nodup := by
      rw [List.map_append] at hactive
      exact (List.nodup_append.mp hactive).1
    have hfresh : new ∉ active := by
      have hnodup := List.Nodup.of_map _ hactive
      exact fun hmem => (List.nodup_append.mp hnodup).2.2 new hmem new (List.mem_singleton_self new) rfl
    have hsplit : ∀ other, Superseded (active ++ [new]) other ↔
        Superseded active other ∨ lastOf active new.conversationId = some other := by
      intro other
      unfold Superseded
      rw [lastOf_concat, List.mem_append, List.mem_singleton]
      by_cases hsame : new.conversationId = other.conversationId
      · rw [if_pos hsame, hsame]
        constructor
        · rintro ⟨hmem | rfl, hne⟩
          · by_cases hlast : lastOf active other.conversationId = some other
            · exact Or.inr hlast
            · exact Or.inl ⟨hmem, hlast⟩
          · exact absurd (Eq.refl _) hne
        · rintro (⟨hmem, -⟩ | hlast)
          · exact ⟨Or.inl hmem, fun heq => hfresh (Option.some.inj heq ▸ hmem)⟩
          · have hmem := (lastOf_some hlast).1
            exact ⟨Or.inl hmem, fun heq => hfresh (Option.some.inj heq ▸ hmem)⟩
      · rw [if_neg hsame]
        constructor
        · rintro ⟨hmem | rfl, hne⟩
          · exact Or.inl ⟨hmem, hne⟩
          · exact absurd (Eq.refl _) hsame
        · rintro (⟨hmem, hne⟩ | hlast)
          · exact ⟨Or.inl hmem, hne⟩
          · exact absurd (lastOf_some hlast).2.symm hsame
    have hstep : (superseded history (active ++ [new])).2 =
        match lastOf active new.conversationId with
        | some previous => (superseded history active).2.set previous
        | none => (superseded history active).2 := by
      rw [superseded, List.foldl_append, ← get?_superseded history active]
      exact Eq.refl _
    have hunique : ∀ a b, a ∈ active → b ∈ active → a.operationId = b.operationId → a = b :=
      fun a b ha hb h => List.inj_on_of_nodup_map hold ha hb h
    rw [hstep, hsplit]
    cases hlast : lastOf active new.conversationId with
    | none =>
      rw [ih hold]
      simp only [hsplit, hlast, or_false, reduceCtorEq]
    | some previous =>
      have hprevious := (lastOf_some hlast).1
      simp only [hsplit, hlast, Option.some.injEq]
      rw [Table.mem_set, ih hold]
      constructor
      · rintro (rfl | ⟨hsuperseded | ⟨hmem, hother⟩, hne⟩)
        · exact Or.inl (Or.inr (Eq.refl _))
        · exact Or.inl (Or.inl hsuperseded)
        · refine Or.inr ⟨hmem, ?_⟩
          rintro other (hsuperseded | rfl)
          · exact hother other hsuperseded
          · exact Ne.symm hne
      · rintro ((hsuperseded | rfl) | ⟨hmem, hother⟩)
        · by_cases hsame : row = previous
          · exact Or.inl hsame
          · exact Or.inr ⟨Or.inl hsuperseded, fun h => hsame (hunique _ _ hsuperseded.1 hprevious h)⟩
        · exact Or.inl (Eq.refl _)
        · refine Or.inr ⟨Or.inr ⟨hmem, fun other h => hother other (Or.inl h)⟩, ?_⟩
          exact Ne.symm (hother previous (Or.inr (Eq.refl _)))

/-! ### The migration -/

variable {db : Database} {conversation : String}

theorem Database.active_nodup (db : Database) : (db.active.map fun row => row.operationId).Nodup := by
  rw [Database.active, List.map_map]
  exact db.operation_id

theorem mem_superseded {history : HistoryByOperation} :
    row ∈ (superseded history active).1.rows ↔ lastOf active row.conversationId = some row := by
  rw [← get?_superseded history, Table.get?_eq_some, and_iff_left (Eq.refl _)]

def migrateActiveRows (db : Database) : Database where
  rows := (superseded db.history db.active).1.rows.map fun row => ⟨some row.conversationId, row⟩
  history := (superseded db.history db.active).2
  drainingGenerations :=
    (db.drainingGenerations ++
      ((db.history.rows ++ db.active).filter fun row => row.status = .draining).map fun row =>
        row.hostGeneration).eraseDups
  operation_id := by
    rw [List.map_map]
    apply List.Nodup.map_on _ (Table.rows_nodup _)
    intro a ha b hb h
    have hmem : ∀ {row}, row ∈ (superseded db.history db.active).1.rows → row ∈ db.active :=
      fun h => (lastOf_some (mem_superseded.mp h)).1
    exact List.inj_on_of_nodup_map db.active_nodup (hmem ha) (hmem hb) h

/-- What the constructor does to the tables: a row whose `conversation_id` is NULL has them
migrated. -/
def openStore (db : Database) : Database :=
  if db.rows.any fun row => row.conversation_id = none then migrateActiveRows db else db

theorem mem_migrated : row ∈ (migrateActiveRows db).active ↔ lastOf db.active row.conversationId = some row := by
  have hactive : (migrateActiveRows db).active = (superseded db.history db.active).1.rows := by
    rw [Database.active, migrateActiveRows, List.map_map]
    exact List.map_id _
  rw [hactive, mem_superseded]

/-- The delivery waits in the row: it is pending, and no successor has acknowledged it. -/
def Waits (row : HandoffRow) (delivery : HandoffDelivery) : Prop :=
  delivery ∈ row.pendingDeliveries ∧ delivery.deliveryId ∉ row.replayedDeliveryIds

/-- The queue is whole: one active row for each conversation that had one, every row kept, and
every delivery that waited still pending in the active row of its conversation. -/
structure KeepsWhole (before after : Database) : Prop where
  one : ∀ conversation ∈ before.active.map (fun row => row.conversationId),
    (after.active.filter fun row => row.conversationId = conversation).length = 1
  kept : ∀ row ∈ before.active ++ before.history.rows, row ∈ after.active ++ after.history.rows
  pending : ∀ row ∈ before.active, ∀ delivery, Waits row delivery →
    ∃ lease ∈ after.active, lease.conversationId = row.conversationId ∧ delivery ∈ lease.pendingDeliveries

/-- What waits in an active row is pending in the last one of its conversation, and the history has
no other row under the operation of a superseded one. -/
def Carried (db : Database) : Prop :=
  (∀ row ∈ db.active, ∀ last, lastOf db.active row.conversationId = some last →
    ∀ delivery, Waits row delivery → delivery ∈ last.pendingDeliveries) ∧
  ∀ row, Superseded db.active row → ∀ old ∈ db.history.rows, old.operationId = row.operationId → old = row

theorem migrated_one (h : conversation ∈ db.active.map fun row => row.conversationId) :
    ((migrateActiveRows db).active.filter fun row => row.conversationId = conversation).length = 1 := by
  obtain ⟨row, hrow, rfl⟩ := List.mem_map.mp h
  obtain ⟨last, hlast⟩ := exists_lastOf hrow
  have hconversation := (lastOf_some hlast).2
  have hmem : last ∈ (migrateActiveRows db).active := mem_migrated.mpr (by rw [hconversation, hlast])
  have hnodup := List.Nodup.of_map _ (migrateActiveRows db).active_nodup
  rw [← List.countP_eq_length_filter, ← List.count_eq_one_of_mem hnodup hmem]
  apply List.countP_congr
  intro other hother
  rw [decide_eq_true_iff, beq_iff_eq]
  constructor
  · intro hsame
    have hother' := mem_migrated.mp hother
    rw [hsame, hlast] at hother'
    exact (Option.some.inj hother').symm
  · rintro rfl
    exact hconversation

theorem migrated_kept_iff :
    (∀ row ∈ db.active ++ db.history.rows,
      row ∈ (migrateActiveRows db).active ++ (migrateActiveRows db).history.rows) ↔
      ∀ row, Superseded db.active row → ∀ old ∈ db.history.rows, old.operationId = row.operationId → old = row := by
  have hhistory : ∀ row, row ∈ (migrateActiveRows db).history.rows ↔ Superseded db.active row ∨
      (row ∈ db.history.rows ∧ ∀ other, Superseded db.active other → other.operationId ≠ row.operationId) :=
    fun row => mem_history_superseded db.history db.active_nodup
  constructor
  · intro h row hsuperseded old hold hsame
    rcases List.mem_append.mp (h old (List.mem_append_right _ hold)) with hactive | hkept
    · have hmem := (lastOf_some (mem_migrated.mp hactive)).1
      exact List.inj_on_of_nodup_map db.active_nodup hmem hsuperseded.1 hsame
    · rcases (hhistory old).mp hkept with hold' | ⟨-, hother⟩
      · exact List.inj_on_of_nodup_map db.active_nodup hold'.1 hsuperseded.1 hsame
      · exact absurd hsame.symm (hother row hsuperseded)
  · intro h row hrow
    rw [List.mem_append, mem_migrated, hhistory]
    by_cases hsuperseded : Superseded db.active row
    · exact Or.inr (Or.inl hsuperseded)
    · rcases List.mem_append.mp hrow with hactive | hold
      · exact Or.inl (not_not.mp fun hne => hsuperseded ⟨hactive, hne⟩)
      · refine Or.inr (Or.inr ⟨hold, fun other hother hsame => hsuperseded ?_⟩)
        rwa [h other hother row hold hsame.symm]

theorem migrated_pending_iff :
    (∀ row ∈ db.active, ∀ delivery, Waits row delivery →
      ∃ lease ∈ (migrateActiveRows db).active, lease.conversationId = row.conversationId ∧
        delivery ∈ lease.pendingDeliveries) ↔
      ∀ row ∈ db.active, ∀ last, lastOf db.active row.conversationId = some last →
        ∀ delivery, Waits row delivery → delivery ∈ last.pendingDeliveries := by
  constructor
  · intro h row hrow last hlast delivery hwaits
    obtain ⟨lease, hlease, hsame, hpending⟩ := h row hrow delivery hwaits
    have hlease' := mem_migrated.mp hlease
    rw [hsame, hlast] at hlease'
    rwa [Option.some.inj hlease']
  · intro h row hrow delivery hwaits
    obtain ⟨last, hlast⟩ := exists_lastOf hrow
    have hconversation := (lastOf_some hlast).2
    exact ⟨last, mem_migrated.mpr (by rw [hconversation, hlast]), hconversation,
      h row hrow last hlast delivery hwaits⟩

/-- **A migration keeps the queue whole exactly where nothing waits in a superseded row only**, and
the history has no other row under its operation. -/
theorem migration_keeps_whole_iff (db : Database)
    (hnull : (db.rows.any fun row => row.conversation_id = none) = true) :
    KeepsWhole db (openStore db) ↔ Carried db := by
  unfold openStore Carried
  rw [if_pos hnull, ← migrated_kept_iff, ← migrated_pending_iff]
  constructor
  · intro h
    exact ⟨h.pending, h.kept⟩
  · intro h
    exact ⟨fun conversation hconversation => migrated_one hconversation, h.2, h.1⟩

/-! ### A delivery that is lost -/

/-- An active row of one conversation. -/
def leaseRow (operationId : String) (pendingDeliveries : List HandoffDelivery) : HandoffRow where
  operationId := operationId
  conversationId := "conversation_root"
  engine := .codex
  engineSessionId := "session_root"
  kind := .root
  parentConversationId := none
  hostGeneration := "gen-blue"
  accountId := none
  turnState := .idle
  pendingDeliveries := pendingDeliveries
  status := .pending
  predecessorGeneration := none
  successorGeneration := none
  replayedDeliveryIds := []
  interruptionOutcome := none
  lastError := none
  enqueuedAt := "2026-07-01T00:00:00.000Z"
  updatedAt := "2026-07-01T00:00:00.000Z"

/-- Two active rows of one conversation in a store without `conversation_id`. -/
def legacyStore (first second : List HandoffDelivery) : Database where
  rows := [⟨none, leaseRow "handoff_first" first⟩, ⟨none, leaseRow "handoff_last" second⟩]
  history := Table.empty
  drainingGenerations := []
  operation_id := by
    show ["handoff_first", "handoff_last"].Nodup
    decide

theorem migration_keeps_whole_empty :
    KeepsWhole (legacyStore [] []) (openStore (legacyStore [] [])) ↔ Carried (legacyStore [] []) :=
  migration_keeps_whole_iff _ (by decide)

/-- **A delivery that waited in the first of two rows waits nowhere after the migration.** -/
theorem migration_drops_delivery :
    ¬ ∀ db : Database, (db.rows.any fun row => row.conversation_id = none) = true →
      KeepsWhole db (openStore db) := by
  intro h
  have hkeeps := h (legacyStore [⟨"delivery", none, 1⟩] []) (by decide)
  obtain ⟨hcarried, -⟩ := (migration_keeps_whole_iff _ (by decide)).mp hkeeps
  have hlast := hcarried (leaseRow "handoff_first" [⟨"delivery", none, 1⟩]) List.mem_cons_self
    (leaseRow "handoff_last" []) (by decide) ⟨"delivery", none, 1⟩ ⟨List.mem_cons_self, List.not_mem_nil⟩
  exact absurd hlast List.not_mem_nil

end Delegatus.HandoffQueue
