import Delegatus.HandoffOwnership

/-!
# No delivery is lost

A delivery is accepted for a conversation when an enqueue creates a row that carries it
or when `admitMessage` takes it.  From then on it is `Held`: it waits on the
conversation's active row, or some row of the conversation records its acknowledgement.
One call keeps a held delivery held (`held_step`), so a run does (`accepted_held`).

A successful claim then offers every held delivery that no row records
(`claim_offers`); a rollback makes the acknowledgements of the failed candidate
unrecorded again (`failCandidate_unrecorded`).
-/

namespace Delegatus.HandoffQueue

/-- Some row of the conversation, active or retired, records the acknowledgement. -/
def Recorded (rows history : List HandoffRow) (conversationId id : String) : Prop :=
  ∃ row ∈ rows ++ history, row.conversationId = conversationId ∧ id ∈ row.replayedDeliveryIds

/-- The delivery waits on an active row of the conversation or is recorded. -/
def Held (rows history : List HandoffRow) (conversationId id : String) : Prop :=
  (∃ row ∈ rows, row.conversationId = conversationId ∧ id ∈ deliveryIds row.pendingDeliveries) ∨
    Recorded rows history conversationId id

/-- The call accepts the delivery `id` for the conversation. -/
def Accepts (conversationId id : String) (state : HandoffQueueStoreState) :
    HandoffOp → Prop
  | .enqueue inputs now =>
      ∃ front input back, inputs = front ++ input :: back ∧
        createsRow (enqueueLoop now state front) input = true ∧
        input.conversationId = conversationId ∧ id ∈ deliveryIds input.pendingDeliveries
  | .admitMessage operationId delivery now =>
      (admitMessage operationId delivery now state).2 = true ∧ delivery.deliveryId = id ∧
        ∃ row ∈ state.rows, row.operationId = operationId ∧ row.conversationId = conversationId
  | _ => False

/-- The successor `generation` has the delivery `id` of the conversation acknowledged. -/
def AcknowledgedBy (conversationId generation id : String) (state : HandoffQueueStoreState) :
    HandoffOp → Prop
  | .acknowledgeReplay operationId successor ids now =>
      (acknowledgeReplay operationId successor ids now state).2 = true ∧
        successor = generation ∧ id ∈ ids ∧
        ∃ row ∈ state.rows, row.operationId = operationId ∧ row.conversationId = conversationId
  | _ => False

/-! ### One call keeps a held delivery -/

section Held

variable {conversationId id : String}

theorem held_enqueueInput {now : String} {acc : RowsById × List HandoffRow}
    {input : HandoffRowInput} (h : Held acc.1.rows acc.2 conversationId id) :
    Held (enqueueInput now acc input).1.rows (enqueueInput now acc input).2
      conversationId id := by
  generalize hrows : (enqueueInput now acc input).1.rows = rows
  generalize hhistory : (enqueueInput now acc input).2 = history
  have hchange := enqueueInput_change now acc input
  rw [hrows, hhistory] at hchange
  cases hchange with
  | kept _ => exact h
  | added _ _ _ =>
    rcases h with ⟨row, hrow, hconv, hid⟩ | ⟨row, hrow, hconv, hid⟩
    · exact Or.inl ⟨row, List.mem_append_left _ hrow, hconv, hid⟩
    · refine Or.inr ⟨row, ?_, hconv, hid⟩
      simp only [List.mem_append] at hrow ⊢
      exact hrow.imp Or.inl fun hold => hold
  | @replaced _ _ active hactive hconversation _ =>
    rcases h with ⟨row, hrow, hconv, hid⟩ | ⟨row, hrow, hconv, hid⟩
    · by_cases hsame : row.operationId = active.operationId
      · -- the retired row's own delivery moves to its replacement, or is recorded
        obtain rfl := acc.1.eq_of_key_eq hrow hactive hsame
        by_cases hreplayed : id ∈ row.replayedDeliveryIds
        · exact Or.inr ⟨row, by simp, hconv, hreplayed⟩
        · refine Or.inl ⟨_, List.mem_append_right _ (List.mem_singleton.mpr rfl),
            hconversation.symm.trans hconv, ?_⟩
          exact mem_deliveryIds_replacement.mpr ⟨Or.inl hid, hreplayed⟩
      · refine Or.inl ⟨row, List.mem_append_left _ ?_, hconv, hid⟩
        exact List.mem_filter.mpr ⟨hrow, by simpa using hsame⟩
    · by_cases hsame : row ∈ acc.1.rows ∧ row.operationId = active.operationId
      · obtain rfl := acc.1.eq_of_key_eq hsame.1 hactive hsame.2
        exact Or.inr ⟨row, by simp, hconv, hid⟩
      · refine Or.inr ⟨row, ?_, hconv, hid⟩
        simp only [List.mem_append, List.mem_filter, decide_eq_true_eq] at hrow ⊢
        rcases hrow with hrow | hrow
        · exact Or.inl (Or.inl ⟨hrow, fun heq => hsame ⟨hrow, heq⟩⟩)
        · exact Or.inr (Or.inl hrow)

/-- Pending deliveries stay pending as long as their row is rewritten in place. -/
theorem RowChange.pending_mono {state : HandoffQueueStoreState} {op : HandoffOp}
    {row row' : HandoffRow} (hchange : RowChange state op row row')
    (hid : id ∈ deliveryIds row.pendingDeliveries) :
    id ∈ deliveryIds row'.pendingDeliveries := by
  cases hchange with
  | admitted hstatus hfresh =>
    simp only [admittedRow, mem_deliveryIds_ordered, mem_deliveryIds_append]
    exact Or.inl hid
  | released hsuccessor =>
    rw [releaseRow_of_successor hsuccessor]
    exact hid
  | _ => exact hid

/-- A recorded acknowledgement is still recorded on the row, or it was one the
conversation's history does not have and the row was released. -/
theorem RowChange.replayed_cases {state : HandoffQueueStoreState} {op : HandoffOp}
    {row row' : HandoffRow} (hchange : RowChange state op row row')
    (hid : id ∈ row.replayedDeliveryIds) :
    id ∈ row'.replayedDeliveryIds ∨
      ((∃ generation now, op = .failCandidate generation now ∧
          row.successorGeneration = some generation) ∧
        id ∉ acknowledgedDeliveryIds state.history row.conversationId) := by
  cases hchange with
  | acknowledged hsuccessor hstatus hknown =>
    simp only [acknowledgedRow, List.mem_eraseDups, List.mem_append]
    exact Or.inl (Or.inl hid)
  | released hsuccessor =>
    rw [releaseRow_of_successor hsuccessor]
    by_cases hhistory : id ∈ acknowledgedDeliveryIds state.history row.conversationId
    · exact Or.inl hhistory
    · exact Or.inr ⟨⟨_, _, rfl, hsuccessor⟩, hhistory⟩
  | _ => exact Or.inl hid

theorem held_rewrites {state state' : HandoffQueueStoreState} {op : HandoffOp}
    (hinv : StoreInv state) (hrewrites : Rewrites state op state')
    (h : Held state.rows state.history conversationId id) :
    Held state'.rows state'.history conversationId id := by
  obtain ⟨f, hrows, hhistory, hchange⟩ := hrewrites
  rw [hrows, hhistory]
  have hpending : ∀ row ∈ state.rows, row.conversationId = conversationId →
      id ∈ deliveryIds row.pendingDeliveries →
      Held (state.rows.map f) state.history conversationId id := by
    intro row hrow hconv hid
    exact Or.inl ⟨f row, List.mem_map_of_mem hrow,
      (hchange row hrow).conversationId_eq.trans hconv, (hchange row hrow).pending_mono hid⟩
  rcases h with ⟨row, hrow, hconv, hid⟩ | ⟨row, hrow, hconv, hid⟩
  · exact hpending row hrow hconv hid
  · rcases List.mem_append.mp hrow with hrow | hold
    · rcases (hchange row hrow).replayed_cases hid with hkept | ⟨-, hnot⟩
      · exact Or.inr ⟨f row, List.mem_append_left _ (List.mem_map_of_mem hrow),
          (hchange row hrow).conversationId_eq.trans hconv, hkept⟩
      · -- a released acknowledgement is of a delivery that still waits on the row
        rcases (hinv.acknowledges row hrow).recorded id hid with hyes | hwaits
        · exact absurd hyes hnot
        · exact hpending row hrow hconv hwaits
    · exact Or.inr ⟨row, List.mem_append_right _ hold, hconv, hid⟩

theorem held_enqueueLoop {state : HandoffQueueStoreState} (hinv : StoreInv state) (now : String)
    (h : Held state.rows state.history conversationId id) (inputs : List HandoffRowInput) :
    Held (enqueueLoop now state inputs).1.rows (enqueueLoop now state inputs).2
      conversationId id := by
  induction inputs using List.reverseRecOn with
  | nil =>
    show Held (Table.ofList state.rows : RowsById).rows state.history _ _
    rw [rowsById_rows hinv.distinct]
    exact h
  | append_singleton inputs input ih =>
    rw [enqueueLoop_concat]
    exact held_enqueueInput ih

/-- **One call keeps a held delivery held.** -/
theorem held_step {state : HandoffQueueStoreState} (hinv : StoreInv state) (op : HandoffOp)
    (h : Held state.rows state.history conversationId id) :
    Held (step state op).1.rows (step state op).1.history conversationId id := by
  by_cases henqueue : ∃ inputs now, op = .enqueue inputs now
  · obtain ⟨inputs, now, rfl⟩ := henqueue
    exact held_enqueueLoop hinv now h inputs
  · exact held_rewrites hinv
      (step_rewrites hinv.distinct op fun inputs now heq => henqueue ⟨inputs, now, heq⟩) h

/-! ### Acceptance and acknowledgement establish it -/

/-- The row an input creates carries the input's deliveries, or its predecessor records
them. -/
theorem held_of_createsRow {now : String} {acc : RowsById × List HandoffRow}
    {input : HandoffRowInput} (hcreates : createsRow acc input = true)
    (hid : id ∈ deliveryIds input.pendingDeliveries) :
    Held (enqueueInput now acc input).1.rows (enqueueInput now acc input).2
      input.conversationId id := by
  generalize hrows : (enqueueInput now acc input).1.rows = rows
  generalize hhistory : (enqueueInput now acc input).2 = history
  have hchange := enqueueInput_change now acc input
  rw [hrows, hhistory] at hchange
  cases hchange with
  | kept hnot => exact absurd hcreates (by simp [hnot])
  | added _ _ _ =>
    refine Or.inl ⟨_, List.mem_append_right _ (List.mem_singleton.mpr rfl), rfl, ?_⟩
    exact mem_deliveryIds_ordered.mpr hid
  | @replaced _ _ active hactive hconversation _ =>
    by_cases hreplayed : id ∈ active.replayedDeliveryIds
    · exact Or.inr ⟨active, by simp, hconversation, hreplayed⟩
    · refine Or.inl ⟨_, List.mem_append_right _ (List.mem_singleton.mpr rfl), rfl, ?_⟩
      exact mem_deliveryIds_replacement.mpr ⟨Or.inr hid, hreplayed⟩

theorem enqueueLoop_append (now : String) (state : HandoffQueueStoreState)
    (front back : List HandoffRowInput) :
    enqueueLoop now state (front ++ back) =
      back.foldl (enqueueInput now) (enqueueLoop now state front) := by
  simp [enqueueLoop]

theorem held_foldl_enqueueInput {now : String} (inputs : List HandoffRowInput)
    {acc : RowsById × List HandoffRow} (h : Held acc.1.rows acc.2 conversationId id) :
    Held (inputs.foldl (enqueueInput now) acc).1.rows (inputs.foldl (enqueueInput now) acc).2
      conversationId id := by
  induction inputs generalizing acc with
  | nil => exact h
  | cons input inputs ih => exact ih (held_enqueueInput h)

theorem held_of_accepts {state : HandoffQueueStoreState} (hinv : StoreInv state)
    {op : HandoffOp} (h : Accepts conversationId id state op) :
    Held (step state op).1.rows (step state op).1.history conversationId id := by
  cases op with
  | enqueue inputs now =>
    obtain ⟨front, input, back, rfl, hcreates, rfl, hid⟩ := h
    show Held (enqueueLoop now state (front ++ input :: back)).1.rows
      (enqueueLoop now state (front ++ input :: back)).2 _ _
    rw [enqueueLoop_append, List.foldl_cons]
    exact held_foldl_enqueueInput back (held_of_createsRow hcreates hid)
  | admitMessage operationId delivery now =>
    obtain ⟨hanswer, rfl, row, hrow, hrowId, hconv⟩ := h
    have hspec := admitMessage_spec hinv.distinct operationId delivery now
    obtain ⟨row', hrow', hrowId', hid⟩ := hspec.2 hanswer
    obtain ⟨f, hrows, -, hchange⟩ := hspec.1
    rw [hrows] at hrow'
    obtain ⟨source, hsource, rfl⟩ := List.mem_map.mp hrow'
    have hsame : source.operationId = row.operationId :=
      (hchange source hsource).operationId_eq.symm.trans (hrowId'.trans hrowId.symm)
    obtain rfl := eq_of_operationId hinv.distinct hrow hsource hsame
    refine Or.inl ⟨f source, ?_, (hchange source hsource).conversationId_eq.trans hconv, hid⟩
    show f source ∈ (admitMessage operationId delivery now state).1.rows
    rw [hrows]
    exact List.mem_map_of_mem hsource
  | _ => exact h.elim

/-- An acknowledged delivery is recorded on the conversation's active row. -/
theorem recorded_of_acknowledgedBy {state : HandoffQueueStoreState} (hinv : StoreInv state)
    {op : HandoffOp} {generation : String}
    (h : AcknowledgedBy conversationId generation id state op) :
    ∃ row ∈ (step state op).1.rows, row.conversationId = conversationId ∧
      id ∈ row.replayedDeliveryIds := by
  cases op with
  | acknowledgeReplay operationId successor ids now =>
    obtain ⟨hanswer, -, hid, row, hrow, hrowId, hconv⟩ := h
    have hrows := ((acknowledgeReplay_spec hinv.distinct operationId successor ids now).2 hanswer).2
    refine ⟨acknowledgedRow ids now row, ?_, hconv, ?_⟩
    · show _ ∈ (acknowledgeReplay operationId successor ids now state).1.rows
      rw [hrows]
      exact List.mem_map.mpr ⟨row, hrow, by simp [rewriteAt, hrowId]⟩
    · simp only [acknowledgedRow, List.mem_eraseDups, List.mem_append]
      exact Or.inr hid
  | _ => exact h.elim

/-- A delivery that was accepted, or acknowledged, during the run. -/
def EnteredIn (ops : List HandoffOp) (conversationId id : String) : Prop :=
  ∃ pre op post, ops = pre ++ op :: post ∧
    (Accepts conversationId id (run pre) op ∨
      ∃ generation, AcknowledgedBy conversationId generation id (run pre) op)

/-- **A delivery that entered the queue is held at the end of the run.** -/
theorem entered_held {ops : List HandoffOp} (h : EnteredIn ops conversationId id) :
    Held (run ops).rows (run ops).history conversationId id := by
  obtain ⟨pre, op, post, rfl, hentered⟩ := h
  have hsince : Runs.Since step (fun state op => Accepts conversationId id state op ∨
        ∃ generation, AcknowledgedBy conversationId generation id state op)
      (fun _ => False) emptyStore (pre ++ op :: post) :=
    ⟨pre, op, post, rfl, hentered, fun _ _ => not_false⟩
  refine Runs.after_since (I := StoreInv)
    (P := fun state => Held state.rows state.history conversationId id)
    (fun _ op h => storeInv_step h op) ?_ (fun _ op hinv _ h => held_step hinv op h)
    storeInv_empty hsince
  rintro state op hinv (haccepts | ⟨generation, hacknowledged⟩)
  · exact held_of_accepts hinv haccepts
  · obtain ⟨row, hrow, hconv, hid⟩ := recorded_of_acknowledgedBy hinv hacknowledged
    exact Or.inr ⟨row, List.mem_append_left _ hrow, hconv, hid⟩

end Held

/-! ### What a claim offers -/

/-- A conversation with a held delivery has an active row. -/
theorem exists_active_of_held {rows history : List HandoffRow} {draining : List String}
    (hinv : QueueInv rows history draining) {conversationId id : String}
    (h : Held rows history conversationId id) :
    ∃ row ∈ rows, row.conversationId = conversationId := by
  rcases h with ⟨row, hrow, hconv, -⟩ | ⟨row, hrow, hconv, -⟩
  · exact ⟨row, hrow, hconv⟩
  · rcases List.mem_append.mp hrow with hrow | hold
    · exact ⟨row, hrow, hconv⟩
    · obtain ⟨active, hactive, heq⟩ := hinv.represented row hold
      exact ⟨active, hactive, heq.trans hconv⟩

/-- A held delivery that no row records waits on the conversation's active row. -/
theorem pending_of_held {rows history : List HandoffRow} {draining : List String}
    (hinv : QueueInv rows history draining) {row : HandoffRow} (hrow : row ∈ rows)
    {id : String} (h : Held rows history row.conversationId id)
    (hnot : ¬ Recorded rows history row.conversationId id) :
    id ∈ deliveryIds row.pendingDeliveries := by
  rcases h with ⟨other, hother, hconv, hid⟩ | hyes
  · obtain rfl := hinv.eq_of_conversation hother hrow hconv
    exact hid
  · exact absurd hyes hnot

/-- A claim that succeeds offers every pending delivery that no row of the conversation
records, hence every such delivery that ever entered the queue. -/
theorem claim_offers {ops : List HandoffOp} {operationId : String} {fence : ClaimFence}
    {now : String} (hok : (claim operationId fence now (run ops)).2.ok = true) :
    ∃ row ∈ (run ops).rows, row.operationId = operationId ∧
      (∀ delivery ∈ row.pendingDeliveries,
        ¬ Recorded (run ops).rows (run ops).history row.conversationId delivery.deliveryId →
        delivery ∈ (claim operationId fence now (run ops)).2.replay) ∧
      (∀ id, EnteredIn ops row.conversationId id →
        ¬ Recorded (run ops).rows (run ops).history row.conversationId id →
        id ∈ deliveryIds (claim operationId fence now (run ops)).2.replay) := by
  have hinv := run_inv ops
  obtain ⟨row, hrow, hrowId, hreplay, -⟩ :=
    (claim_spec hinv.distinct operationId fence now).2.1 hok
  have hunrecorded : ∀ id, ¬ Recorded (run ops).rows (run ops).history row.conversationId id →
      id ∉ row.replayedDeliveryIds :=
    fun id hnot hid => hnot ⟨row, List.mem_append_left _ hrow, rfl, hid⟩
  refine ⟨row, hrow, hrowId, ?_, ?_⟩
  · intro delivery hdelivery hnot
    rw [hreplay, replayOf, List.mem_filter, decide_eq_true_eq]
    exact ⟨mem_orderedDeliveries.mpr hdelivery, hunrecorded _ hnot⟩
  · intro id hentered hnot
    rw [hreplay, mem_deliveryIds_replayOf]
    exact ⟨pending_of_held hinv hrow (entered_held hentered) hnot, hunrecorded id hnot⟩

/-- The rollback of a candidate forgets what only the candidate's rows recorded. -/
theorem failCandidate_unrecorded {state : HandoffQueueStoreState} (hinv : StoreInv state)
    (now : String) {generation : String} {row : HandoffRow} (hrow : row ∈ state.rows)
    (hsuccessor : row.successorGeneration = some generation) {id : String}
    (hnot : id ∉ acknowledgedDeliveryIds state.history row.conversationId) :
    ¬ Recorded (failCandidate generation now state).1.rows
        (failCandidate generation now state).1.history row.conversationId id := by
  rw [failCandidate_rows hinv.distinct]
  rintro ⟨other, hother, hconv, hid⟩
  rcases List.mem_append.mp hother with hother | hold
  · obtain ⟨source, hsource, rfl⟩ := List.mem_map.mp hother
    have hsourceConv : source.conversationId = row.conversationId := by
      rw [← hconv]
      unfold releaseRow
      split <;> rfl
    obtain rfl := hinv.eq_of_conversation hsource hrow hsourceConv
    rw [releaseRow_of_successor hsuccessor] at hid
    exact hnot hid
  · exact hnot (mem_acknowledgedDeliveryIds.mpr ⟨other, hold, hconv, hid⟩)

/-- After the rollback of its candidate, a claim on the released row offers every held
delivery that the conversation's history does not record. -/
theorem claim_offers_released {ops : List HandoffOp} {row : HandoffRow}
    (hrow : row ∈ (run ops).rows) {generation later : String}
    (hsuccessor : row.successorGeneration = some generation) {id : String}
    (hheld : Held (run ops).rows (run ops).history row.conversationId id)
    (hnot : id ∉ acknowledgedDeliveryIds (run ops).history row.conversationId)
    {fence : ClaimFence} {now : String}
    (hok : (claim row.operationId fence now
      (run (ops ++ [.failCandidate generation later]))).2.ok = true) :
    id ∈ deliveryIds (claim row.operationId fence now
      (run (ops ++ [.failCandidate generation later]))).2.replay := by
  have hinv := run_inv ops
  have hinv' := run_inv (ops ++ [.failCandidate generation later])
  have hheld' := held_step hinv (.failCandidate generation later) hheld
  have hunrecorded := failCandidate_unrecorded hinv later hrow hsuccessor hnot
  obtain ⟨released, hreleased, hreleasedId, hreplay, -⟩ :=
    (claim_spec hinv'.distinct row.operationId fence now).2.1 hok
  have hstate : run (ops ++ [.failCandidate generation later]) =
      (failCandidate generation later (run ops)).1 := run_concat ops _
  rw [hstate] at hreleased hinv'
  -- the claimed row is the released one
  have hconv : released.conversationId = row.conversationId := by
    rw [failCandidate_rows hinv.distinct] at hreleased
    obtain ⟨source, hsource, rfl⟩ := List.mem_map.mp hreleased
    rw [releaseRow_operationId] at hreleasedId
    obtain rfl := eq_of_operationId hinv.distinct hrow hsource hreleasedId
    unfold releaseRow
    split <;> rfl
  rw [hreplay, mem_deliveryIds_replayOf]
  refine ⟨pending_of_held hinv' hreleased (hconv ▸ hheld') (hconv ▸ hunrecorded), ?_⟩
  intro hmem
  exact hunrecorded ⟨released, List.mem_append_left _ hreleased, hconv, hmem⟩

/-! ### The contract -/

/-- **No delivery is lost.**  A delivery accepted for a conversation waits, in every later
state, on the conversation's one active row or is recorded by some row of the
conversation; a successful claim offers every pending delivery that no row records, also
those acknowledged earlier in the run; and a rollback leaves what only the failed
candidate recorded unrecorded, so the next claim offers it. -/
theorem deliveries_survive (ops : List HandoffOp) :
    (∀ pre op post conversationId id, ops = pre ++ op :: post →
      Accepts conversationId id (run pre) op →
      ∃ active ∈ (run ops).rows, active.conversationId = conversationId ∧
        (∀ other ∈ (run ops).rows, other.conversationId = conversationId → other = active) ∧
        (id ∈ deliveryIds active.pendingDeliveries ∨
          Recorded (run ops).rows (run ops).history conversationId id)) ∧
    (∀ operationId fence now, (claim operationId fence now (run ops)).2.ok = true →
      ∃ row ∈ (run ops).rows, row.operationId = operationId ∧
        (∀ delivery ∈ row.pendingDeliveries,
          ¬ Recorded (run ops).rows (run ops).history row.conversationId
            delivery.deliveryId →
          delivery ∈ (claim operationId fence now (run ops)).2.replay) ∧
        (∀ id, EnteredIn ops row.conversationId id →
          ¬ Recorded (run ops).rows (run ops).history row.conversationId id →
          id ∈ deliveryIds (claim operationId fence now (run ops)).2.replay)) ∧
    (∀ generation later, ∀ row ∈ (run ops).rows, row.successorGeneration = some generation →
      ∀ id ∈ row.replayedDeliveryIds,
        (∀ old ∈ (run ops).history, old.conversationId = row.conversationId →
          id ∉ old.replayedDeliveryIds) →
        ∀ fence now,
          (claim row.operationId fence now
            (run (ops ++ [.failCandidate generation later]))).2.ok = true →
          id ∈ deliveryIds (claim row.operationId fence now
            (run (ops ++ [.failCandidate generation later]))).2.replay) := by
  have hinv := run_inv ops
  refine ⟨?_, fun _ _ _ hok => claim_offers hok, ?_⟩
  · intro pre op post conversationId id hops haccepts
    have hheld := entered_held ⟨pre, op, post, hops, Or.inl haccepts⟩
    obtain ⟨active, hactive, rfl⟩ := exists_active_of_held hinv hheld
    refine ⟨active, hactive, rfl, ?_, ?_⟩
    · intro other hother hconv
      exact hinv.eq_of_conversation hother hactive hconv
    · by_cases hrecorded : Recorded (run ops).rows (run ops).history active.conversationId id
      · exact Or.inr hrecorded
      · exact Or.inl (pending_of_held hinv hactive hheld hrecorded)
  · intro generation later row hrow hsuccessor id hid hhistory fence now hok
    have hnot : id ∉ acknowledgedDeliveryIds (run ops).history row.conversationId := by
      intro hmem
      obtain ⟨old, hold, hconv, hold'⟩ := mem_acknowledgedDeliveryIds.mp hmem
      exact hhistory old hold hconv hold'
    exact claim_offers_released hrow hsuccessor
      (Or.inr ⟨row, List.mem_append_left _ hrow, rfl, hid⟩) hnot hok

end Delegatus.HandoffQueue
