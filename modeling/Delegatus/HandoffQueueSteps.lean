import Delegatus.HandoffQueue

/-!
# What one call of the handoff queue can do

Every method other than `enqueue` rewrites the active rows in place: `step_rows` gives
the rewriting and, row by row, which of the eight changes (`RowChange`) it is and under
which guards.  One iteration of `enqueue`'s loop leaves everything as it is, adds a row
for a conversation without one, or replaces a conversation's row and retires the old row
to the history (`enqueueInput_cases`).

The invariants of the queue are derived from these two statements; nothing later unfolds
a method again.
-/

namespace Delegatus.HandoffQueue

/-! ### Deliveries -/

@[simp] theorem mem_orderedDeliveries {delivery : HandoffDelivery}
    {deliveries : List HandoffDelivery} :
    delivery ∈ orderedDeliveries deliveries ↔ delivery ∈ deliveries := by
  simp [orderedDeliveries]

theorem mem_deliveryIds {id : String} {deliveries : List HandoffDelivery} :
    id ∈ deliveryIds deliveries ↔ ∃ delivery ∈ deliveries, delivery.deliveryId = id := by
  simp [deliveryIds]

@[simp] theorem mem_deliveryIds_ordered {id : String} {deliveries : List HandoffDelivery} :
    id ∈ deliveryIds (orderedDeliveries deliveries) ↔ id ∈ deliveryIds deliveries := by
  simp [mem_deliveryIds]

@[simp] theorem mem_deliveryIds_append {id : String} {left right : List HandoffDelivery} :
    id ∈ deliveryIds (left ++ right) ↔ id ∈ deliveryIds left ∨ id ∈ deliveryIds right := by
  simp [deliveryIds]

/-- Renumbering keeps every delivery's identity and the order. -/
@[simp] theorem deliveryIds_renumbered (deliveries : List HandoffDelivery) :
    deliveryIds (renumbered deliveries) = deliveryIds deliveries := by
  apply List.ext_getElem
  · simp [deliveryIds, renumbered]
  · intro index h₁ h₂
    simp [deliveryIds, renumbered]

/-- The deliveries that wait on a replacement row: those of the replaced row and of the
input that the replaced row does not record as acknowledged. -/
theorem mem_deliveryIds_replacement {id : String} {previous : HandoffRow}
    {incoming : List HandoffDelivery} :
    id ∈ deliveryIds (replacementDeliveries previous incoming) ↔
      (id ∈ deliveryIds previous.pendingDeliveries ∨ id ∈ deliveryIds incoming) ∧
        id ∉ previous.replayedDeliveryIds := by
  simp only [replacementDeliveries, deliveryIds_renumbered, mem_deliveryIds_append]
  simp only [mem_deliveryIds, List.mem_filter, mem_orderedDeliveries, decide_eq_true_eq]
  constructor
  · rintro (⟨delivery, ⟨⟨hmem, hfresh⟩, -⟩, rfl⟩ | ⟨delivery, ⟨hmem, hfresh⟩, rfl⟩)
    · exact ⟨Or.inl ⟨delivery, hmem, rfl⟩, hfresh⟩
    · exact ⟨Or.inr ⟨delivery, hmem, rfl⟩, hfresh⟩
  · rintro ⟨hpending, hfresh⟩
    by_cases hincoming : ∃ delivery ∈ incoming, delivery.deliveryId = id
    · obtain ⟨delivery, hmem, rfl⟩ := hincoming
      exact Or.inr ⟨delivery, ⟨hmem, hfresh⟩, rfl⟩
    · rcases hpending with ⟨delivery, hmem, rfl⟩ | hmem
      · refine Or.inl ⟨delivery, ⟨⟨hmem, hfresh⟩, ?_⟩, rfl⟩
        rintro ⟨other, ⟨hother, -⟩, heq⟩
        exact hincoming ⟨other, hother, heq⟩
      · exact absurd hmem hincoming

/-- Some row of the conversation in `history` records the acknowledgement of `id`. -/
theorem mem_acknowledgedDeliveryIds {history : List HandoffRow} {conversationId id : String} :
    id ∈ acknowledgedDeliveryIds history conversationId ↔
      ∃ row ∈ history, row.conversationId = conversationId ∧ id ∈ row.replayedDeliveryIds := by
  simp only [acknowledgedDeliveryIds, List.mem_eraseDups, List.mem_flatMap, List.mem_filter,
    decide_eq_true_eq, and_assoc]

theorem mem_acknowledgedDeliveryIds_concat {history : List HandoffRow} {row : HandoffRow}
    {conversationId id : String} :
    id ∈ acknowledgedDeliveryIds (history ++ [row]) conversationId ↔
      id ∈ acknowledgedDeliveryIds history conversationId ∨
        (row.conversationId = conversationId ∧ id ∈ row.replayedDeliveryIds) := by
  simp only [mem_acknowledgedDeliveryIds, List.mem_append, List.mem_singleton]
  constructor
  · rintro ⟨other, hother | rfl, hrest⟩
    · exact Or.inl ⟨other, hother, hrest⟩
    · exact Or.inr hrest
  · rintro (⟨other, hother, hrest⟩ | hrest)
    · exact ⟨other, Or.inl hother, hrest⟩
    · exact ⟨row, Or.inr rfl, hrest⟩

theorem mem_deliveryIds_replayOf {id : String} {row : HandoffRow} :
    id ∈ deliveryIds (replayOf row) ↔
      id ∈ deliveryIds row.pendingDeliveries ∧ id ∉ row.replayedDeliveryIds := by
  simp only [replayOf, mem_deliveryIds, List.mem_filter, mem_orderedDeliveries, decide_eq_true_eq]
  constructor
  · rintro ⟨delivery, ⟨hmem, hfresh⟩, rfl⟩
    exact ⟨⟨delivery, hmem, rfl⟩, hfresh⟩
  · rintro ⟨⟨delivery, hmem, rfl⟩, hfresh⟩
    exact ⟨delivery, ⟨hmem, hfresh⟩, rfl⟩

/-! ### Rows rewritten in place -/

/-- What one call can make of one active row.  Each constructor states the guards the
method checks before it writes. -/
inductive RowChange (state : HandoffQueueStoreState) :
    HandoffOp → HandoffRow → HandoffRow → Prop where
  | kept {op row} : RowChange state op row row
  | drained {generation now row}
      (hhost : row.hostGeneration = generation)
      (hstatus : row.status = .pending ∨ row.status = .claimed) :
      RowChange state (.beginDrain generation now) row
        { row with status := .draining, updatedAt := now }
  | admitted {delivery now row}
      (hstatus : row.status ≠ .terminal)
      (hfresh : delivery.deliveryId ∉ deliveryIds row.pendingDeliveries) :
      RowChange state (.admitMessage row.operationId delivery now) row
        (admittedRow delivery now row)
  | refreshed {turnState now row}
      (hstatus : row.status = .pending ∨ row.status = .draining)
      (hturn : row.turnState = .terminal → turnState = .terminal) :
      RowChange state (.refreshTurnState row.operationId row.hostGeneration turnState now) row
        (refreshedRow turnState now row)
  | transferred {fence now row}
      (hhost : row.hostGeneration = fence.fromGeneration)
      (hnew : alreadyClaimed row fence = false) :
      RowChange state (.claim row.operationId fence now) row (transferredRow fence now row)
  | acknowledged {generation ids now row}
      (hsuccessor : row.successorGeneration = some generation)
      (hstatus : row.status = .claimed ∨ row.status = .terminal)
      (hknown : ∀ id ∈ ids, id ∈ deliveryIds row.pendingDeliveries) :
      RowChange state (.acknowledgeReplay row.operationId generation ids now) row
        (acknowledgedRow ids now row)
  | released {generation now row}
      (hsuccessor : row.successorGeneration = some generation) :
      RowChange state (.failCandidate generation now) row
        (releaseRow state generation now row)
  | failed {error now row} :
      RowChange state (.markRetryableFailure row.operationId error now) row
        (failedRow error now row)

theorem RowChange.operationId_eq {state : HandoffQueueStoreState} {op : HandoffOp}
    {row row' : HandoffRow} (h : RowChange state op row row') :
    row'.operationId = row.operationId := by
  cases h with
  | released => exact releaseRow_operationId ..
  | _ => rfl

theorem RowChange.conversationId_eq {state : HandoffQueueStoreState} {op : HandoffOp}
    {row row' : HandoffRow} (h : RowChange state op row row') :
    row'.conversationId = row.conversationId := by
  cases h with
  | released =>
    unfold releaseRow
    split <;> rfl
  | _ => rfl

/-- The rewriting of the one row of key `operationId`. -/
def rewriteAt (operationId : String) (f : HandoffRow → HandoffRow) (row : HandoffRow) :
    HandoffRow :=
  if row.operationId = operationId then f row else row

/-- A state whose active rows have distinct operation ids: the map of `mutate` has
exactly these rows. -/
def DistinctRows (state : HandoffQueueStoreState) : Prop :=
  (state.rows.map (fun row => row.operationId)).Nodup

section Methods

variable {state : HandoffQueueStoreState}

theorem rowsById_rows (h : DistinctRows state) :
    (Table.ofList state.rows : RowsById).rows = state.rows :=
  Table.rows_ofList h

theorem rowsById_get? (h : DistinctRows state) {operationId : String} {row : HandoffRow} :
    (Table.ofList state.rows : RowsById).get? operationId = some row ↔
      row ∈ state.rows ∧ row.operationId = operationId := by
  rw [Table.get?_eq_some, rowsById_rows h]

/-- The effect of one call on the stored rows: a rewriting `f` of the active rows, each
by a change the call allows; the history stays. -/
def Rewrites (state : HandoffQueueStoreState) (op : HandoffOp)
    (state' : HandoffQueueStoreState) : Prop :=
  ∃ f : HandoffRow → HandoffRow, state'.rows = state.rows.map f ∧
    state'.history = state.history ∧ ∀ row ∈ state.rows, RowChange state op row (f row)

theorem rewrites_self {op : HandoffOp} {state' : HandoffQueueStoreState}
    (hrows : state'.rows = state.rows) (hhistory : state'.history = state.history) :
    Rewrites state op state' :=
  ⟨id, by simpa using hrows, hhistory, fun _ _ => .kept⟩

/-- A call that rewrites the one row it looked up changes that row only. -/
theorem rewrites_at {op : HandoffOp} {state' : HandoffQueueStoreState} {operationId : String}
    {f : HandoffRow → HandoffRow}
    (hrows : state'.rows = state.rows.map (rewriteAt operationId f))
    (hhistory : state'.history = state.history)
    (hrow : ∀ row ∈ state.rows, row.operationId = operationId → RowChange state op row (f row)) :
    Rewrites state op state' := by
  refine ⟨rewriteAt operationId f, hrows, hhistory, ?_⟩
  intro row hmem
  unfold rewriteAt
  by_cases h : row.operationId = operationId
  · rw [if_pos h]
    exact hrow row hmem h
  · rw [if_neg h]
    exact .kept

/-- The row a method looked up, when every active row of that id is that row. -/
theorem eq_of_operationId (h : DistinctRows state) {row other : HandoffRow}
    (hrow : row ∈ state.rows) (hother : other ∈ state.rows)
    (heq : other.operationId = row.operationId) : other = row :=
  List.inj_on_of_nodup_map h hother hrow heq

/-- A mutation that writes nothing. -/
theorem mutate_kept (h : DistinctRows state) {τ : Type} (result : τ)
    {mutation : RowsById → HandoffQueueStoreState → RowsById × HandoffQueueStoreState × τ}
    (hcall : mutation (Table.ofList state.rows) state =
      (Table.ofList state.rows, state, result)) :
    mutate state mutation =
      (⟨state.rows, state.history, state.drainingGenerations.eraseDups⟩, result) := by
  simp only [mutate, hcall, rowsById_rows h]

/-- A mutation that writes the row of `operationId`. -/
theorem mutate_rewritten (h : DistinctRows state) {τ : Type} (operationId : String)
    {f : HandoffRow → HandoffRow} (hf : ∀ row, (f row).operationId = row.operationId)
    (result : τ)
    {mutation : RowsById → HandoffQueueStoreState → RowsById × HandoffQueueStoreState × τ}
    (hcall : mutation (Table.ofList state.rows) state =
      ((Table.ofList state.rows).modify operationId f hf, state, result)) :
    mutate state mutation =
      (⟨state.rows.map (rewriteAt operationId f), state.history,
        state.drainingGenerations.eraseDups⟩, result) := by
  simp only [mutate, hcall, Table.rows_modify, rowsById_rows h]
  rfl

/-! ### The methods that write one row -/

/-- An accepted message waits on the row it was sent to. -/
theorem admitMessage_spec (h : DistinctRows state) (operationId : String)
    (delivery : HandoffDelivery) (now : String) :
    Rewrites state (.admitMessage operationId delivery now)
        (admitMessage operationId delivery now state).1 ∧
      ((admitMessage operationId delivery now state).2 = true →
        ∃ row ∈ (admitMessage operationId delivery now state).1.rows,
          row.operationId = operationId ∧
            delivery.deliveryId ∈ deliveryIds row.pendingDeliveries) := by
  cases hget : (Table.ofList state.rows : RowsById).get? operationId with
  | none =>
    rw [admitMessage, mutate_kept h false (by simp only [hget])]
    exact ⟨rewrites_self rfl rfl, by simp⟩
  | some row =>
    obtain ⟨hmem, rfl⟩ := (rowsById_get? h).mp hget
    by_cases hterminal : row.status = .terminal
    · rw [admitMessage, mutate_kept h false (by simp only [hget, if_pos hterminal])]
      exact ⟨rewrites_self rfl rfl, by simp⟩
    · by_cases hknown : delivery.deliveryId ∈ deliveryIds row.pendingDeliveries
      · rw [admitMessage, mutate_kept h true (by simp only [hget, if_neg hterminal, if_pos hknown])]
        exact ⟨rewrites_self rfl rfl, fun _ => ⟨row, hmem, rfl, hknown⟩⟩
      · rw [admitMessage, mutate_rewritten h row.operationId
          (admittedRow_operationId delivery now) true
          (by simp only [hget, if_neg hterminal, if_neg hknown])]
        refine ⟨rewrites_at rfl rfl ?_, fun _ => ?_⟩
        · intro other hother heq
          obtain rfl := eq_of_operationId h hmem hother heq
          exact .admitted hterminal hknown
        · refine ⟨admittedRow delivery now row, ?_, rfl, ?_⟩
          · exact List.mem_map.mpr ⟨row, hmem, by simp [rewriteAt]⟩
          · simp only [admittedRow, mem_deliveryIds_ordered, mem_deliveryIds_append]
            exact Or.inr (by simp [deliveryIds])

theorem refreshTurnState_spec (h : DistinctRows state) (operationId generation : String)
    (turnState : HandoffTurnState) (now : String) :
    Rewrites state (.refreshTurnState operationId generation turnState now)
      (refreshTurnState operationId generation turnState now state).1 := by
  cases hget : (Table.ofList state.rows : RowsById).get? operationId with
  | none =>
    rw [refreshTurnState, mutate_kept h false (by simp only [hget])]
    exact rewrites_self rfl rfl
  | some row =>
    obtain ⟨hmem, rfl⟩ := (rowsById_get? h).mp hget
    by_cases hfence : row.hostGeneration ≠ generation ∨
        (row.status ≠ .pending ∧ row.status ≠ .draining)
    · rw [refreshTurnState, mutate_kept h false (by simp only [hget, if_pos hfence])]
      exact rewrites_self rfl rfl
    · by_cases hturn : row.turnState = .terminal ∧ turnState ≠ .terminal
      · rw [refreshTurnState,
          mutate_kept h false (by simp only [hget, if_neg hfence, if_pos hturn])]
        exact rewrites_self rfl rfl
      · rw [refreshTurnState, mutate_rewritten h row.operationId
          (refreshedRow_operationId turnState now) true
          (by simp only [hget, if_neg hfence, if_neg hturn])]
        refine rewrites_at rfl rfl ?_
        intro other hother heq
        obtain rfl := eq_of_operationId h hmem hother heq
        push Not at hfence hturn
        obtain ⟨rfl, hstatus⟩ := hfence
        refine .refreshed ?_ hturn
        by_cases hpending : other.status = .pending
        · exact Or.inl hpending
        · exact Or.inr (hstatus hpending)

/-- The lease of `operationId` moves from `fence.fromGeneration` to `fence.toGeneration`:
its active row is hosted by the first and not yet claimed by the second. -/
def Transfers (state : HandoffQueueStoreState) (operationId : String) (fence : ClaimFence) :
    Prop :=
  ∃ row ∈ state.rows, row.operationId = operationId ∧
    alreadyClaimed row fence = false ∧ row.hostGeneration = fence.fromGeneration

/-- A successful claim offers the unacknowledged deliveries of its row, and either finds
the lease transferred already or transfers it. -/
theorem claim_spec (h : DistinctRows state) (operationId : String) (fence : ClaimFence)
    (now : String) :
    Rewrites state (.claim operationId fence now) (claim operationId fence now state).1 ∧
      ((claim operationId fence now state).2.ok = true →
        ∃ row ∈ state.rows, row.operationId = operationId ∧
          (claim operationId fence now state).2.replay = replayOf row ∧
          (alreadyClaimed row fence = true ∨ Transfers state operationId fence)) ∧
      (Transfers state operationId fence →
        (claim operationId fence now state).2.ok = true ∧
        (claim operationId fence now state).1.rows =
          state.rows.map (rewriteAt operationId (transferredRow fence now))) := by
  cases hget : (Table.ofList state.rows : RowsById).get? operationId with
  | none =>
    rw [claim, mutate_kept h ⟨false, none, [], some .notFound⟩ (by simp only [hget])]
    refine ⟨rewrites_self rfl rfl, by simp, ?_⟩
    rintro ⟨row, hmem, hid, -⟩
    rw [(rowsById_get? h).mpr ⟨hmem, hid⟩] at hget
    cases hget
  | some row =>
    obtain ⟨hmem, rfl⟩ := (rowsById_get? h).mp hget
    have hsame : ∀ other ∈ state.rows, other.operationId = row.operationId → other = row :=
      fun other hother heq => eq_of_operationId h hmem hother heq
    by_cases hclaimed : alreadyClaimed row fence = true
    · rw [claim, mutate_kept h ⟨true, some row, replayOf row, none⟩ (by simp only [hget, if_pos hclaimed])]
      refine ⟨rewrites_self rfl rfl, fun _ => ⟨row, hmem, rfl, rfl, Or.inl hclaimed⟩, ?_⟩
      rintro ⟨other, hother, hid, hnot, -⟩
      rw [hsame other hother hid, hclaimed] at hnot
      cases hnot
    · by_cases hhost : row.hostGeneration ≠ fence.fromGeneration
      · rw [claim, mutate_kept h ⟨false, some row, [], some .generationFence⟩ (by simp only [hget, if_neg hclaimed, if_pos hhost])]
        refine ⟨rewrites_self rfl rfl, by simp, ?_⟩
        rintro ⟨other, hother, hid, -, hfrom⟩
        rw [hsame other hother hid] at hfrom
        exact absurd hfrom hhost
      · rw [claim, mutate_rewritten h row.operationId
          (transferredRow_operationId fence now) ⟨true, some (transferredRow fence now row), replayOf row, none⟩
          (by simp only [hget, if_neg hclaimed, if_neg hhost])]
        have hfrom : row.hostGeneration = fence.fromGeneration := not_not.mp hhost
        have htransfers : Transfers state row.operationId fence :=
          ⟨row, hmem, rfl, by simpa using hclaimed, hfrom⟩
        refine ⟨rewrites_at rfl rfl ?_,
          fun _ => ⟨row, hmem, rfl, rfl, Or.inr htransfers⟩, fun _ => ⟨rfl, rfl⟩⟩
        intro other hother heq
        obtain rfl := hsame other hother heq
        exact .transferred hfrom (by simpa using hclaimed)

/-- An accepted acknowledgement was made by the row's successor, for deliveries that
wait on the row, and is recorded on it. -/
theorem acknowledgeReplay_spec (h : DistinctRows state) (operationId generation : String)
    (ids : List String) (now : String) :
    Rewrites state (.acknowledgeReplay operationId generation ids now)
        (acknowledgeReplay operationId generation ids now state).1 ∧
      ((acknowledgeReplay operationId generation ids now state).2 = true →
        (∃ row ∈ state.rows, row.operationId = operationId ∧
          row.successorGeneration = some generation ∧
          ∀ id ∈ ids, id ∈ deliveryIds row.pendingDeliveries) ∧
        (acknowledgeReplay operationId generation ids now state).1.rows =
          state.rows.map (rewriteAt operationId (acknowledgedRow ids now))) := by
  cases hget : (Table.ofList state.rows : RowsById).get? operationId with
  | none =>
    rw [acknowledgeReplay, mutate_kept h false (by simp only [hget])]
    exact ⟨rewrites_self rfl rfl, by simp⟩
  | some row =>
    obtain ⟨hmem, rfl⟩ := (rowsById_get? h).mp hget
    by_cases hfence : row.successorGeneration ≠ some generation ∨
        (row.status ≠ .claimed ∧ row.status ≠ .terminal)
    · rw [acknowledgeReplay, mutate_kept h false (by simp only [hget, if_pos hfence])]
      exact ⟨rewrites_self rfl rfl, by simp⟩
    · by_cases hunknown : ids.any (fun id => id ∉ deliveryIds row.pendingDeliveries) = true
      · rw [acknowledgeReplay,
          mutate_kept h false (by simp only [hget, if_neg hfence, if_pos hunknown])]
        exact ⟨rewrites_self rfl rfl, by simp⟩
      · rw [acknowledgeReplay, mutate_rewritten h row.operationId
          (acknowledgedRow_operationId ids now) true
          (by simp only [hget, if_neg hfence, if_neg hunknown])]
        have hknown : ∀ id ∈ ids, id ∈ deliveryIds row.pendingDeliveries := by
          intro id hid
          by_contra hnot
          exact hunknown (List.any_eq_true.mpr ⟨id, hid, by simpa using hnot⟩)
        push Not at hfence
        have hstatus : row.status = .claimed ∨ row.status = .terminal := by
          by_cases hclaimed : row.status = .claimed
          · exact Or.inl hclaimed
          · exact Or.inr (hfence.2 hclaimed)
        refine ⟨rewrites_at rfl rfl ?_, fun _ => ⟨⟨row, hmem, rfl, hfence.1, hknown⟩, rfl⟩⟩
        intro other hother heq
        obtain rfl := eq_of_operationId h hmem hother heq
        exact .acknowledged hfence.1 hstatus hknown

theorem markRetryableFailure_spec (h : DistinctRows state) (operationId error now : String) :
    Rewrites state (.markRetryableFailure operationId error now)
      (markRetryableFailure operationId error now state).1 := by
  cases hget : (Table.ofList state.rows : RowsById).get? operationId with
  | none =>
    rw [markRetryableFailure, mutate_kept h () (by simp only [hget])]
    exact rewrites_self rfl rfl
  | some row =>
    rw [markRetryableFailure, mutate_rewritten h operationId (failedRow_operationId error now) ()
          (by simp only [hget])]
    refine rewrites_at rfl rfl ?_
    intro other hother heq
    rw [← heq]
    exact .failed

/-! ### The methods that write every row -/

theorem beginDrain_spec (h : DistinctRows state) (generation now : String) :
    Rewrites state (.beginDrain generation now) (beginDrain generation now state).1 := by
  refine ⟨drainRow generation now, ?_, rfl, ?_⟩
  · simp only [beginDrain, mutate, Table.rows_mapRows, rowsById_rows h]
  · intro row _
    unfold drainRow
    by_cases hhost : row.hostGeneration = generation
    · by_cases hstatus : row.status ≠ .pending ∧ row.status ≠ .claimed
      · simp only [ne_eq, hhost, not_true_eq_false, if_false]
        rw [if_pos hstatus]
        exact .kept
      · simp only [ne_eq, hhost, not_true_eq_false, if_false]
        rw [if_neg hstatus]
        refine .drained hhost ?_
        by_contra hnot
        push Not at hnot
        exact hstatus hnot
    · rw [if_pos hhost]
      exact .kept

theorem failCandidate_rows (h : DistinctRows state) (generation now : String) :
    (failCandidate generation now state).1.rows =
      state.rows.map (releaseRow state generation now) := by
  simp only [failCandidate, mutate, Table.rows_mapRows, rowsById_rows h]

theorem failCandidate_spec (h : DistinctRows state) (generation now : String) :
    Rewrites state (.failCandidate generation now) (failCandidate generation now state).1 := by
  refine ⟨releaseRow state generation now, failCandidate_rows h generation now, rfl, ?_⟩
  intro row _
  by_cases hsuccessor : row.successorGeneration = some generation
  · exact .released hsuccessor
  · have hkept : releaseRow state generation now row = row := by
      unfold releaseRow
      rw [if_pos hsuccessor]
    rw [hkept]
    exact .kept

/-- **One call, row by row.**  Every method but `enqueue` rewrites the active rows in
place, each by a change the call allows, and leaves the history. -/
theorem step_rewrites (h : DistinctRows state) (op : HandoffOp)
    (hop : ∀ inputs now, op ≠ .enqueue inputs now) :
    Rewrites state op (step state op).1 := by
  cases op with
  | enqueue inputs now => exact absurd rfl (hop inputs now)
  | beginDrain generation now => exact beginDrain_spec h generation now
  | admitMessage operationId delivery now =>
    exact (admitMessage_spec h operationId delivery now).1
  | refreshTurnState operationId generation turnState now =>
    exact refreshTurnState_spec h operationId generation turnState now
  | claim operationId fence now => exact (claim_spec h operationId fence now).1
  | acknowledgeReplay operationId generation ids now =>
    exact (acknowledgeReplay_spec h operationId generation ids now).1
  | failCandidate generation now => exact failCandidate_spec h generation now
  | markRetryableFailure operationId error now =>
    exact markRetryableFailure_spec h operationId error now

theorem mem_drainingGenerations_mutate {τ : Type}
    {mutation : RowsById → HandoffQueueStoreState → RowsById × HandoffQueueStoreState × τ}
    (hkept : ∀ rowsById, (mutation rowsById state).2.1 = state) {generation : String} :
    generation ∈ (mutate state mutation).1.drainingGenerations ↔
      generation ∈ state.drainingGenerations := by
  simp only [mutate, hkept, List.mem_eraseDups]

/-- The draining generations only grow, and a drained generation is among them. -/
theorem mem_drainingGenerations_step {op : HandoffOp} {generation : String} :
    generation ∈ (step state op).1.drainingGenerations ↔
      generation ∈ state.drainingGenerations ∨ ∃ now, op = .beginDrain generation now := by
  cases op with
  | enqueue inputs now => simp [step, enqueue, mutate]
  | beginDrain drained now =>
    simp only [step, beginDrain, mutate, List.mem_eraseDups]
    by_cases h : drained ∈ state.drainingGenerations
    · rw [if_pos h]
      constructor
      · exact Or.inl
      · rintro (hmem | ⟨_, heq⟩)
        · exact hmem
        · cases heq
          exact h
    · rw [if_neg h, List.mem_append, List.mem_singleton]
      constructor
      · rintro (hmem | rfl)
        · exact Or.inl hmem
        · exact Or.inr ⟨now, rfl⟩
      · rintro (hmem | ⟨_, heq⟩)
        · exact Or.inl hmem
        · cases heq
          exact Or.inr rfl
  | admitMessage operationId delivery now =>
    simp only [step, admitMessage, reduceCtorEq, exists_false, or_false]
    apply mem_drainingGenerations_mutate
    intro rowsById
    cases rowsById.get? operationId with
    | none => rfl
    | some row =>
      dsimp only
      split_ifs <;> rfl
  | refreshTurnState operationId generation turnState now =>
    simp only [step, refreshTurnState, reduceCtorEq, exists_false, or_false]
    apply mem_drainingGenerations_mutate
    intro rowsById
    cases rowsById.get? operationId with
    | none => rfl
    | some row =>
      dsimp only
      split_ifs <;> rfl
  | claim operationId fence now =>
    simp only [step, claim, reduceCtorEq, exists_false, or_false]
    apply mem_drainingGenerations_mutate
    intro rowsById
    cases rowsById.get? operationId with
    | none => rfl
    | some row =>
      dsimp only
      split_ifs <;> rfl
  | acknowledgeReplay operationId generation ids now =>
    simp only [step, acknowledgeReplay, reduceCtorEq, exists_false, or_false]
    apply mem_drainingGenerations_mutate
    intro rowsById
    cases rowsById.get? operationId with
    | none => rfl
    | some row =>
      dsimp only
      split_ifs <;> rfl
  | failCandidate generation now => simp [step, failCandidate, mutate]
  | markRetryableFailure operationId error now =>
    simp only [step, markRetryableFailure, reduceCtorEq, exists_false, or_false]
    apply mem_drainingGenerations_mutate
    intro rowsById
    cases rowsById.get? operationId with
    | none => rfl
    | some row => rfl

end Methods

/-! ### One iteration of `enqueue` -/

/-- The input creates a row: its operation is new, and the conversation's active row, if
there is one, is neither pending nor draining. -/
def createsRow (acc : RowsById × List HandoffRow) (input : HandoffRowInput) : Bool :=
  !knownOperation acc.1 acc.2 input.operationId &&
    match activeRow acc.1 input.conversationId with
    | some active => active.status ≠ .pending ∧ active.status ≠ .draining
    | none => true

/-- What one iteration of `enqueue` makes of the active rows and the history. -/
inductive EnqueueChange (now : String) (acc : RowsById × List HandoffRow)
    (input : HandoffRowInput) : List HandoffRow → List HandoffRow → Prop where
  | kept (hcreates : createsRow acc input = false) :
      EnqueueChange now acc input acc.1.rows acc.2
  | added (hcreates : createsRow acc input = true)
      (hfresh : ∀ row ∈ acc.1.rows ++ acc.2, row.operationId ≠ input.operationId)
      (hnone : ∀ row ∈ acc.1.rows, row.conversationId ≠ input.conversationId) :
      EnqueueChange now acc input (acc.1.rows ++ [enqueuedRow acc.2 none input now]) acc.2
  | replaced (hcreates : createsRow acc input = true)
      (hfresh : ∀ row ∈ acc.1.rows ++ acc.2, row.operationId ≠ input.operationId)
      {active : HandoffRow} (hactive : active ∈ acc.1.rows)
      (hconversation : active.conversationId = input.conversationId)
      (hstatus : active.status ≠ .pending ∧ active.status ≠ .draining) :
      EnqueueChange now acc input
        (acc.1.rows.filter (fun row => row.operationId ≠ active.operationId) ++
          [enqueuedRow (acc.2 ++ [active]) (some active) input now])
        (acc.2 ++ [active])

theorem knownOperation_eq_false {rowsById : RowsById} {history : List HandoffRow}
    {operationId : String} :
    knownOperation rowsById history operationId = false ↔
      ∀ row ∈ rowsById.rows ++ history, row.operationId ≠ operationId := by
  simp only [knownOperation, Bool.or_eq_false_iff, Table.has_eq_false, List.any_eq_false,
    decide_eq_true_eq, List.mem_append]
  constructor
  · rintro ⟨hrows, hhistory⟩ row (hrow | hrow)
    · exact hrows row hrow
    · exact hhistory row hrow
  · intro h
    exact ⟨fun row hrow => h row (Or.inl hrow), fun row hrow => h row (Or.inr hrow)⟩

theorem enqueueInput_change (now : String) (acc : RowsById × List HandoffRow)
    (input : HandoffRowInput) :
    EnqueueChange now acc input (enqueueInput now acc input).1.rows
      (enqueueInput now acc input).2 := by
  obtain ⟨rowsById, history⟩ := acc
  cases hknown : knownOperation rowsById history input.operationId with
  | true =>
    have hkept : enqueueInput now (rowsById, history) input = (rowsById, history) := by
      simp only [enqueueInput, hknown, if_true]
    rw [hkept]
    exact .kept (by simp [createsRow, hknown])
  | false =>
    have hfresh := knownOperation_eq_false.mp hknown
    cases hactive : activeRow rowsById input.conversationId with
    | none =>
      have hnone : ∀ row ∈ rowsById.rows, row.conversationId ≠ input.conversationId := by
        simpa [activeRow] using hactive
      have hadded : enqueueInput now (rowsById, history) input =
          (rowsById.set (enqueuedRow history none input now), history) := by
        simp only [enqueueInput, hknown, hactive, Bool.false_eq_true, if_false]
      rw [hadded, Table.rows_set_of_fresh fun row hrow =>
        hfresh row (List.mem_append_left _ hrow)]
      exact .added (by simp [createsRow, hknown, hactive]) hfresh hnone
    | some active =>
      have hmem : active ∈ rowsById.rows := List.mem_of_find?_eq_some hactive
      have hconversation : active.conversationId = input.conversationId := by
        simpa using List.find?_some hactive
      by_cases hstatus : active.status = .pending ∨ active.status = .draining
      · have hkept : enqueueInput now (rowsById, history) input = (rowsById, history) := by
          simp only [enqueueInput, hknown, hactive, Bool.false_eq_true, if_false, if_pos hstatus]
        rw [hkept]
        refine .kept ?_
        rcases hstatus with hstatus | hstatus
        · simp [createsRow, hknown, hactive, hstatus]
        · simp [createsRow, hknown, hactive, hstatus]
      · have hreplaced : enqueueInput now (rowsById, history) input =
            ((rowsById.delete active.operationId).set
              (enqueuedRow (history ++ [active]) (some active) input now),
              history ++ [active]) := by
          simp only [enqueueInput, hknown, hactive, Bool.false_eq_true, if_false, if_neg hstatus]
        rw [hreplaced, Table.rows_set_of_fresh fun row hrow =>
          hfresh row (List.mem_append_left _ (Table.mem_delete.mp hrow).1)]
        push Not at hstatus
        exact .replaced (by simp [createsRow, hknown, hactive, hstatus]) hfresh hmem
          hconversation hstatus

/-- The map and the history when `enqueue` has looked at `inputs`. -/
def enqueueLoop (now : String) (state : HandoffQueueStoreState)
    (inputs : List HandoffRowInput) : RowsById × List HandoffRow :=
  inputs.foldl (enqueueInput now) (Table.ofList state.rows, state.history)

theorem enqueueLoop_concat (now : String) (state : HandoffQueueStoreState)
    (inputs : List HandoffRowInput) (input : HandoffRowInput) :
    enqueueLoop now state (inputs ++ [input]) =
      enqueueInput now (enqueueLoop now state inputs) input := by
  simp [enqueueLoop]

end Delegatus.HandoffQueue
