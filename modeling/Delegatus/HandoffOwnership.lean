import Delegatus.HandoffQueueSteps
import Mathlib.Data.List.Induction

/-!
# Ownership in the handoff queue

`QueueInv` is the invariant of the queue: one active row for a conversation, no operation
id twice, every row's links and status in step with its host (`Owned`), and the
acknowledgements of an active row made of those of the conversation's history and of
deliveries that wait on the row itself (`Acknowledges`).  It holds in every reachable
state (`run_inv`).

Over it stands the fence: once a generation has given a row's lease away, the row is back
with it only after the winner failed or after a transfer back (`Away`).
-/

namespace Delegatus.HandoffQueue

/-! ### The invariant -/

/-- A row's links and status agree with its host. -/
structure Owned (draining : List String) (row : HandoffRow) : Prop where
  links : (row.predecessorGeneration = none ∧ row.successorGeneration = none) ∨
    ((∃ predecessor, row.predecessorGeneration = some predecessor) ∧
      row.successorGeneration = some row.hostGeneration)
  pending : row.status = .pending → row.successorGeneration = none
  draining : row.status = .draining → row.hostGeneration ∈ draining

/-- An active row records the acknowledgements of its conversation's history, and besides
them only acknowledgements of deliveries that wait on it. -/
structure Acknowledges (history : List HandoffRow) (row : HandoffRow) : Prop where
  inherits : ∀ id ∈ acknowledgedDeliveryIds history row.conversationId,
    id ∈ row.replayedDeliveryIds
  recorded : ∀ id ∈ row.replayedDeliveryIds,
    id ∈ acknowledgedDeliveryIds history row.conversationId ∨
      id ∈ deliveryIds row.pendingDeliveries

/-- The invariant of the queue's stored rows. -/
structure QueueInv (rows history : List HandoffRow) (draining : List String) : Prop where
  rowIds : (rows.map (fun row => row.operationId)).Nodup
  historyIds : (history.map (fun row => row.operationId)).Nodup
  disjoint : ∀ row ∈ rows, ∀ old ∈ history, row.operationId ≠ old.operationId
  conversations : (rows.map (fun row => row.conversationId)).Nodup
  owned : ∀ row ∈ rows ++ history, Owned draining row
  acknowledges : ∀ row ∈ rows, Acknowledges history row
  represented : ∀ old ∈ history, ∃ row ∈ rows, row.conversationId = old.conversationId

/-- The invariant of a store. -/
def StoreInv (state : HandoffQueueStoreState) : Prop :=
  QueueInv state.rows state.history state.drainingGenerations

theorem StoreInv.distinct {state : HandoffQueueStoreState} (h : StoreInv state) :
    DistinctRows state := h.rowIds

theorem storeInv_empty : StoreInv emptyStore where
  rowIds := by simp [emptyStore]
  historyIds := by simp [emptyStore]
  disjoint := by simp [emptyStore]
  conversations := by simp [emptyStore]
  owned := by simp [emptyStore]
  acknowledges := by simp [emptyStore]
  represented := by simp [emptyStore]

theorem Owned.mono {draining draining' : List String} {row : HandoffRow}
    (h : Owned draining row) (hsub : ∀ generation ∈ draining, generation ∈ draining') :
    Owned draining' row :=
  ⟨h.links, h.pending, fun hstatus => hsub _ (h.draining hstatus)⟩

/-- The active row of a conversation is unique. -/
theorem QueueInv.eq_of_conversation {rows history : List HandoffRow} {draining : List String}
    (h : QueueInv rows history draining) {row other : HandoffRow} (hrow : row ∈ rows)
    (hother : other ∈ rows) (heq : row.conversationId = other.conversationId) : row = other :=
  List.inj_on_of_nodup_map h.conversations hrow hother heq

/-! ### `enqueue` keeps the invariant -/

section Enqueue

variable {now : String} {history : List HandoffRow} {draining : List String}
  {input : HandoffRowInput}

theorem enqueuedRow_owned (active : Option HandoffRow) :
    Owned draining (enqueuedRow history active input now) :=
  ⟨Or.inl ⟨rfl, rfl⟩, fun _ => rfl, fun h => by cases h⟩

theorem enqueuedRow_acknowledges (active : Option HandoffRow) :
    Acknowledges history (enqueuedRow history active input now) :=
  ⟨fun _ hid => hid, fun _ hid => Or.inl hid⟩

/-- Retiring another conversation's row does not touch a row's acknowledgements. -/
theorem Acknowledges.concat {row active : HandoffRow} (h : Acknowledges history row)
    (hne : active.conversationId ≠ row.conversationId) :
    Acknowledges (history ++ [active]) row := by
  have hsame : ∀ id, id ∈ acknowledgedDeliveryIds (history ++ [active]) row.conversationId ↔
      id ∈ acknowledgedDeliveryIds history row.conversationId := by
    intro id
    rw [mem_acknowledgedDeliveryIds_concat]
    exact ⟨fun hid => hid.resolve_right fun hid' => hne hid'.1, Or.inl⟩
  refine ⟨fun id hid => h.inherits id ((hsame id).mp hid), fun id hid => ?_⟩
  rcases h.recorded id hid with hold | hpending
  · exact Or.inl ((hsame id).mpr hold)
  · exact Or.inr hpending

theorem queueInv_added {rows : List HandoffRow} (h : QueueInv rows history draining)
    (hfresh : ∀ row ∈ rows ++ history, row.operationId ≠ input.operationId)
    (hnone : ∀ row ∈ rows, row.conversationId ≠ input.conversationId) :
    QueueInv (rows ++ [enqueuedRow history none input now]) history draining where
  rowIds := by
    rw [List.map_append, List.nodup_append]
    refine ⟨h.rowIds, by simp, ?_⟩
    intro id hid id' hid'
    obtain ⟨row, hrow, rfl⟩ := List.mem_map.mp hid
    rw [List.mem_singleton.mp hid']
    exact hfresh row (List.mem_append_left _ hrow)
  historyIds := h.historyIds
  disjoint := by
    intro row hrow old hold
    rcases List.mem_append.mp hrow with hrow | hrow
    · exact h.disjoint row hrow old hold
    · rw [List.mem_singleton.mp hrow]
      exact (hfresh old (List.mem_append_right _ hold)).symm
  conversations := by
    rw [List.map_append, List.nodup_append]
    refine ⟨h.conversations, by simp, ?_⟩
    intro id hid id' hid'
    obtain ⟨row, hrow, rfl⟩ := List.mem_map.mp hid
    rw [List.mem_singleton.mp hid']
    exact hnone row hrow
  owned := by
    intro row hrow
    simp only [List.mem_append, List.mem_singleton] at hrow
    rcases hrow with (hrow | rfl) | hrow
    · exact h.owned row (List.mem_append_left _ hrow)
    · exact enqueuedRow_owned none
    · exact h.owned row (List.mem_append_right _ hrow)
  acknowledges := by
    intro row hrow
    rcases List.mem_append.mp hrow with hrow | hrow
    · exact h.acknowledges row hrow
    · rw [List.mem_singleton.mp hrow]
      exact enqueuedRow_acknowledges none
  represented := by
    intro old hold
    obtain ⟨row, hrow, heq⟩ := h.represented old hold
    exact ⟨row, List.mem_append_left _ hrow, heq⟩

theorem queueInv_replaced {rows : List HandoffRow} (h : QueueInv rows history draining)
    (hfresh : ∀ row ∈ rows ++ history, row.operationId ≠ input.operationId)
    {active : HandoffRow} (hactive : active ∈ rows)
    (hconversation : active.conversationId = input.conversationId) :
    QueueInv
      (rows.filter (fun row => row.operationId ≠ active.operationId) ++
        [enqueuedRow (history ++ [active]) (some active) input now])
      (history ++ [active]) draining := by
  -- the rows that stay are the rows of the other conversations
  have hstays : ∀ row ∈ rows.filter (fun row => row.operationId ≠ active.operationId),
      row ∈ rows ∧ row.operationId ≠ active.operationId ∧
        row.conversationId ≠ active.conversationId := by
    intro row hrow
    obtain ⟨hmem, hne⟩ := List.mem_filter.mp hrow
    have hne : row.operationId ≠ active.operationId := by simpa using hne
    refine ⟨hmem, hne, fun heq => hne ?_⟩
    rw [h.eq_of_conversation hmem hactive heq]
  have hnew : ∀ row ∈ rows, row.operationId ≠ input.operationId :=
    fun row hrow => hfresh row (List.mem_append_left _ hrow)
  constructor
  case rowIds =>
    rw [List.map_append, List.nodup_append]
    refine ⟨h.rowIds.sublist (List.filter_sublist.map _), by simp, ?_⟩
    intro id hid id' hid'
    obtain ⟨row, hrow, rfl⟩ := List.mem_map.mp hid
    rw [List.mem_singleton.mp hid']
    exact hnew row (hstays row hrow).1
  case historyIds =>
    rw [List.map_append, List.nodup_append]
    refine ⟨h.historyIds, by simp, ?_⟩
    intro id hid id' hid'
    obtain ⟨old, hold, rfl⟩ := List.mem_map.mp hid
    rw [List.mem_singleton.mp hid']
    exact (h.disjoint active hactive old hold).symm
  case disjoint =>
    intro row hrow old hold
    simp only [List.mem_append, List.mem_singleton] at hrow hold
    rcases hrow with hrow | rfl
    · rcases hold with hold | rfl
      · exact h.disjoint row (hstays row hrow).1 old hold
      · exact (hstays row hrow).2.1
    · rcases hold with hold | rfl
      · exact (hfresh old (List.mem_append_right _ hold)).symm
      · exact (hnew old hactive).symm
  case conversations =>
    rw [List.map_append, List.nodup_append]
    refine ⟨h.conversations.sublist (List.filter_sublist.map _), by simp, ?_⟩
    intro id hid id' hid'
    obtain ⟨row, hrow, rfl⟩ := List.mem_map.mp hid
    rw [List.mem_singleton.mp hid']
    intro heq
    exact (hstays row hrow).2.2 (heq.trans hconversation.symm)
  case owned =>
    intro row hrow
    simp only [List.mem_append, List.mem_singleton] at hrow
    rcases hrow with (hrow | rfl) | hrow | rfl
    · exact h.owned row (List.mem_append_left _ (hstays row hrow).1)
    · exact enqueuedRow_owned (some active)
    · exact h.owned row (List.mem_append_right _ hrow)
    · exact h.owned row (List.mem_append_left _ hactive)
  case acknowledges =>
    intro row hrow
    rcases List.mem_append.mp hrow with hrow | hrow
    · exact (h.acknowledges row (hstays row hrow).1).concat (hstays row hrow).2.2.symm
    · rw [List.mem_singleton.mp hrow]
      exact enqueuedRow_acknowledges (some active)
  case represented =>
    intro old hold
    simp only [List.mem_append, List.mem_singleton] at hold
    by_cases hsame : old.conversationId = input.conversationId
    · exact ⟨_, List.mem_append_right _ (List.mem_singleton.mpr rfl), hsame.symm⟩
    · rcases hold with hold | rfl
      · obtain ⟨row, hrow, heq⟩ := h.represented old hold
        refine ⟨row, List.mem_append_left _ (List.mem_filter.mpr ⟨hrow, ?_⟩), heq⟩
        rw [decide_eq_true_eq]
        intro hid
        have hrowActive : row = active := List.inj_on_of_nodup_map h.rowIds hrow hactive hid
        exact hsame (by rw [← heq, hrowActive, hconversation])
      · exact absurd hconversation hsame

theorem queueInv_enqueueInput {acc : RowsById × List HandoffRow}
    (h : QueueInv acc.1.rows acc.2 draining) :
    QueueInv (enqueueInput now acc input).1.rows (enqueueInput now acc input).2 draining := by
  generalize hrows : (enqueueInput now acc input).1.rows = rows
  generalize hhistory : (enqueueInput now acc input).2 = history
  have hchange := enqueueInput_change now acc input
  rw [hrows, hhistory] at hchange
  cases hchange with
  | kept _ => exact h
  | added _ hfresh hnone => exact queueInv_added h hfresh hnone
  | replaced _ hfresh hactive hconversation _ =>
    exact queueInv_replaced h hfresh hactive hconversation

theorem queueInv_enqueueLoop {state : HandoffQueueStoreState} (h : StoreInv state)
    (now : String) (inputs : List HandoffRowInput) :
    QueueInv (enqueueLoop now state inputs).1.rows (enqueueLoop now state inputs).2
      state.drainingGenerations := by
  induction inputs using List.reverseRecOn with
  | nil =>
    show QueueInv (Table.ofList state.rows : RowsById).rows state.history _
    rw [rowsById_rows h.distinct]
    exact h
  | append_singleton inputs input ih =>
    rw [enqueueLoop_concat]
    exact queueInv_enqueueInput ih

end Enqueue

/-! ### Every call keeps the invariant -/

section Calls

variable {state : HandoffQueueStoreState} {op : HandoffOp} {row row' : HandoffRow}

theorem draining_mono (state : HandoffQueueStoreState) (op : HandoffOp) :
    ∀ generation ∈ state.drainingGenerations,
      generation ∈ (step state op).1.drainingGenerations :=
  fun _ hmem => mem_drainingGenerations_step.mpr (Or.inl hmem)

theorem terminalStatusFor_cases (turnState : HandoffTurnState) :
    terminalStatusFor turnState = .terminal ∨ terminalStatusFor turnState = .claimed := by
  unfold terminalStatusFor
  split
  · exact Or.inl rfl
  · exact Or.inr rfl

theorem owned_transferredRow (draining : List String) (fence : ClaimFence) (now : String)
    (row : HandoffRow) : Owned draining (transferredRow fence now row) := by
  refine ⟨Or.inr ⟨⟨_, rfl⟩, rfl⟩, fun h => ?_, fun h => ?_⟩
  · rcases terminalStatusFor_cases row.turnState with hstatus | hstatus
    · exact absurd (h.symm.trans hstatus) (by decide)
    · exact absurd (h.symm.trans hstatus) (by decide)
  · rcases terminalStatusFor_cases row.turnState with hstatus | hstatus
    · exact absurd (h.symm.trans hstatus) (by decide)
    · exact absurd (h.symm.trans hstatus) (by decide)

/-- The row that `failCandidate` makes of a row of the failed candidate. -/
theorem releaseRow_of_successor {generation now : String}
    (h : row.successorGeneration = some generation) :
    releaseRow state generation now row =
      { row with
        hostGeneration := row.predecessorGeneration.getD row.hostGeneration
        status := releasedStatus state.drainingGenerations row.predecessorGeneration
        predecessorGeneration := none
        successorGeneration := none
        replayedDeliveryIds := acknowledgedDeliveryIds state.history row.conversationId
        interruptionOutcome := none
        updatedAt := now } := by
  unfold releaseRow
  rw [if_neg (not_not.mpr h)]

/-- A row is released into draining only to a predecessor that is draining. -/
theorem releasedStatus_draining {draining : List String} {predecessor : Option String}
    (h : releasedStatus draining predecessor = .draining) :
    ∃ generation, predecessor = some generation ∧ generation ∈ draining := by
  cases predecessor with
  | none => cases h
  | some generation =>
    by_cases hdraining : generation ≠ "" ∧ generation ∈ draining
    · exact ⟨generation, rfl, hdraining.2⟩
    · rw [releasedStatus, if_neg hdraining] at h
      cases h

theorem RowChange.owned (hchange : RowChange state op row row')
    (h : Owned state.drainingGenerations row) :
    Owned (step state op).1.drainingGenerations row' := by
  have hmono := h.mono (draining_mono state op)
  cases hchange with
  | kept => exact hmono
  | drained hhost hstatus =>
    refine ⟨h.links, fun hpending => (by cases hpending), fun _ => ?_⟩
    exact mem_drainingGenerations_step.mpr (Or.inr ⟨_, by rw [hhost]⟩)
  | admitted hstatus hfresh => exact ⟨hmono.links, hmono.pending, hmono.draining⟩
  | refreshed hstatus hturn => exact ⟨hmono.links, hmono.pending, hmono.draining⟩
  | transferred hhost hnew => exact owned_transferredRow ..
  | acknowledged hsuccessor hstatus hknown =>
    exact ⟨hmono.links, hmono.pending, hmono.draining⟩
  | released hsuccessor =>
    rw [releaseRow_of_successor hsuccessor]
    refine ⟨Or.inl ⟨rfl, rfl⟩, fun _ => rfl, fun hdraining => ?_⟩
    obtain ⟨predecessor, hpredecessor, hmem⟩ := releasedStatus_draining hdraining
    show row.predecessorGeneration.getD row.hostGeneration ∈ _
    rw [hpredecessor]
    exact draining_mono state _ predecessor hmem
  | failed => exact ⟨h.links, fun hpending => (by cases hpending), fun hd => by cases hd⟩

theorem RowChange.acknowledges (hchange : RowChange state op row row')
    (h : Acknowledges state.history row) : Acknowledges state.history row' := by
  cases hchange with
  | kept => exact h
  | drained => exact ⟨h.inherits, h.recorded⟩
  | admitted hstatus hfresh =>
    refine ⟨h.inherits, fun id hid => ?_⟩
    rcases h.recorded id hid with hold | hpending
    · exact Or.inl hold
    · refine Or.inr ?_
      simp only [admittedRow, mem_deliveryIds_ordered, mem_deliveryIds_append]
      exact Or.inl hpending
  | refreshed => exact ⟨h.inherits, h.recorded⟩
  | transferred => exact ⟨h.inherits, h.recorded⟩
  | acknowledged hsuccessor hstatus hknown =>
    constructor
    · intro id hid
      simp only [acknowledgedRow, List.mem_eraseDups, List.mem_append]
      exact Or.inl (h.inherits id hid)
    · intro id hid
      simp only [acknowledgedRow, List.mem_eraseDups, List.mem_append] at hid
      rcases hid with hid | hid
      · exact h.recorded id hid
      · exact Or.inr (hknown id hid)
  | released hsuccessor =>
    rw [releaseRow_of_successor hsuccessor]
    exact ⟨fun _ hid => hid, fun _ hid => Or.inl hid⟩
  | failed => exact ⟨h.inherits, h.recorded⟩

theorem storeInv_rewrites {state' : HandoffQueueStoreState} (h : StoreInv state)
    (hdraining : state'.drainingGenerations = (step state op).1.drainingGenerations)
    (hrewrites : Rewrites state op state') : StoreInv state' := by
  obtain ⟨f, hrows, hhistory, hchange⟩ := hrewrites
  have hids : state'.rows.map (fun row => row.operationId) =
      state.rows.map (fun row => row.operationId) := by
    rw [hrows, List.map_map]
    exact List.map_congr_left fun row hrow => (hchange row hrow).operationId_eq
  have hconversations : state'.rows.map (fun row => row.conversationId) =
      state.rows.map (fun row => row.conversationId) := by
    rw [hrows, List.map_map]
    exact List.map_congr_left fun row hrow => (hchange row hrow).conversationId_eq
  have hfrom : ∀ row' ∈ state'.rows, ∃ row ∈ state.rows, RowChange state op row row' := by
    intro row' hrow'
    rw [hrows] at hrow'
    obtain ⟨row, hrow, rfl⟩ := List.mem_map.mp hrow'
    exact ⟨row, hrow, hchange row hrow⟩
  constructor
  case rowIds => exact hids ▸ h.rowIds
  case historyIds => exact hhistory ▸ h.historyIds
  case disjoint =>
    intro row' hrow' old hold
    obtain ⟨row, hrow, hrowChange⟩ := hfrom row' hrow'
    rw [hrowChange.operationId_eq]
    exact h.disjoint row hrow old (hhistory ▸ hold)
  case conversations => exact hconversations ▸ h.conversations
  case owned =>
    intro row' hrow'
    rw [hdraining]
    rcases List.mem_append.mp hrow' with hrow' | hold
    · obtain ⟨row, hrow, hrowChange⟩ := hfrom row' hrow'
      exact hrowChange.owned (h.owned row (List.mem_append_left _ hrow))
    · rw [hhistory] at hold
      exact (h.owned row' (List.mem_append_right _ hold)).mono (draining_mono state op)
  case acknowledges =>
    intro row' hrow'
    obtain ⟨row, hrow, hrowChange⟩ := hfrom row' hrow'
    rw [hhistory]
    exact hrowChange.acknowledges (h.acknowledges row hrow)
  case represented =>
    intro old hold
    rw [hhistory] at hold
    obtain ⟨row, hrow, heq⟩ := h.represented old hold
    refine ⟨f row, by rw [hrows]; exact List.mem_map_of_mem hrow, ?_⟩
    rw [(hchange row hrow).conversationId_eq, heq]

/-- **Every call keeps the invariant.** -/
theorem storeInv_step (h : StoreInv state) (op : HandoffOp) : StoreInv (step state op).1 := by
  by_cases henqueue : ∃ inputs now, op = .enqueue inputs now
  · obtain ⟨inputs, now, rfl⟩ := henqueue
    have hloop := queueInv_enqueueLoop h now inputs
    show QueueInv _ _ (state.drainingGenerations.eraseDups)
    refine { hloop with owned := fun row hrow => ?_ }
    exact (hloop.owned row hrow).mono fun generation hmem => List.mem_eraseDups.mpr hmem
  · refine storeInv_rewrites h rfl (step_rewrites h.distinct op ?_)
    intro inputs now heq
    exact henqueue ⟨inputs, now, heq⟩

end Calls

/-- **The invariant holds in every reachable state.** -/
theorem run_inv (ops : List HandoffOp) : StoreInv (run ops) :=
  Runs.after_invariant (P := StoreInv) (fun _ op h => storeInv_step h op) storeInv_empty ops

theorem run_append (pre post : List HandoffOp) :
    run (pre ++ post) = Runs.after step (run pre) post :=
  Runs.after_append step emptyStore pre post

theorem run_concat (ops : List HandoffOp) (op : HandoffOp) :
    run (ops ++ [op]) = (step (run ops) op).1 :=
  Runs.after_concat step emptyStore ops op

end Delegatus.HandoffQueue
