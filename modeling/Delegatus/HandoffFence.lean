import Delegatus.HandoffOwnership

/-!
# The generation fence

The history of the queue only grows, and a lease that a generation gave away does not
come back to it by itself.  `Away operationId origin winner` is what a transfer from
`origin` to `winner` establishes: the row is hosted elsewhere, and only a rollback of
`winner` could hand it to `origin` again.  Every call keeps it, unless the call fails
`winner` or transfers the row to `origin` (`away_step`).
-/

namespace Delegatus.HandoffQueue

/-! ### The history -/

theorem enqueueLoop_history_prefix (now : String) (state : HandoffQueueStoreState)
    (inputs : List HandoffRowInput) : state.history <+: (enqueueLoop now state inputs).2 := by
  induction inputs using List.reverseRecOn with
  | nil => exact List.prefix_refl _
  | append_singleton inputs input ih =>
    rw [enqueueLoop_concat]
    generalize enqueueLoop now state inputs = acc at ih
    generalize hrows : (enqueueInput now acc input).1.rows = rows
    generalize hhistory : (enqueueInput now acc input).2 = history
    have hchange := enqueueInput_change now acc input
    rw [hrows, hhistory] at hchange
    cases hchange with
    | kept _ => exact ih
    | added _ _ _ => exact ih
    | replaced _ _ _ _ _ => exact ih.trans (List.prefix_append _ _)

theorem history_prefix_step {state : HandoffQueueStoreState} (h : StoreInv state)
    (op : HandoffOp) : state.history <+: (step state op).1.history := by
  by_cases henqueue : ∃ inputs now, op = .enqueue inputs now
  · obtain ⟨inputs, now, rfl⟩ := henqueue
    exact enqueueLoop_history_prefix now state inputs
  · obtain ⟨f, -, hhistory, -⟩ :=
      step_rewrites h.distinct op fun inputs now heq => henqueue ⟨inputs, now, heq⟩
    exact hhistory.symm ▸ List.prefix_refl state.history

/-- The history of a run stays at the front of every later history. -/
theorem history_prefix (ops later : List HandoffOp) :
    (run ops).history <+: (run (ops ++ later)).history := by
  rw [run_append]
  exact Runs.after_related_of (I := StoreInv)
    (R := fun before after => before.history <+: after.history)
    (fun _ => List.prefix_refl _) (fun _ _ _ => List.IsPrefix.trans)
    (fun _ op h => storeInv_step h op) (fun _ op h => history_prefix_step h op)
    (run_inv ops) later

/-! ### A lease that was given away -/

/-- The row of `operationId` left `origin` for `winner` and is not on its way back. -/
structure Away (operationId origin winner : String) (rows history : List HandoffRow) :
    Prop where
  known : ∃ row ∈ rows ++ history, row.operationId = operationId
  host : ∀ row ∈ rows, row.operationId = operationId → row.hostGeneration ≠ origin
  origin : ∀ row ∈ rows, row.operationId = operationId →
    row.predecessorGeneration = some origin → row.successorGeneration = some winner

/-- The two kinds of call that may bring the row back to `origin`: the rollback of the
winner, and a transfer to `origin`. -/
def BringsBack (operationId origin winner : String) (state : HandoffQueueStoreState)
    (op : HandoffOp) : Prop :=
  (∃ now, op = .failCandidate winner now) ∨
    ∃ holder now, op = .claim operationId ⟨holder, origin⟩ now ∧
      Transfers state operationId ⟨holder, origin⟩

section Away

variable {operationId origin winner : String}

theorem away_enqueueInput {now : String} {acc : RowsById × List HandoffRow}
    {input : HandoffRowInput} (h : Away operationId origin winner acc.1.rows acc.2) :
    Away operationId origin winner (enqueueInput now acc input).1.rows
      (enqueueInput now acc input).2 := by
  generalize hrows : (enqueueInput now acc input).1.rows = rows
  generalize hhistory : (enqueueInput now acc input).2 = history
  have hchange := enqueueInput_change now acc input
  rw [hrows, hhistory] at hchange
  obtain ⟨known, hknown, hid⟩ := h.known
  cases hchange with
  | kept _ => exact h
  | added _ hfresh _ =>
    -- the new row has a new operation id, so it is not the row in question
    have hold : ∀ row ∈ acc.1.rows ++ [enqueuedRow acc.2 none input now],
        row.operationId = operationId → row ∈ acc.1.rows := by
      intro row hrow hrowId
      rcases List.mem_append.mp hrow with hrow | hrow
      · exact hrow
      · rw [List.mem_singleton.mp hrow] at hrowId
        exact absurd (hid.trans hrowId.symm) (hfresh known hknown)
    refine ⟨⟨known, ?_, hid⟩, fun row hrow hrowId => h.host row (hold row hrow hrowId) hrowId,
      fun row hrow hrowId => h.origin row (hold row hrow hrowId) hrowId⟩
    simp only [List.mem_append] at hknown ⊢
    exact hknown.imp Or.inl id
  | @replaced _ hfresh active hactive _ _ =>
    have hold : ∀ row ∈ acc.1.rows.filter (fun row => row.operationId ≠ active.operationId) ++
        [enqueuedRow (acc.2 ++ [active]) (some active) input now],
        row.operationId = operationId → row ∈ acc.1.rows := by
      intro row hrow hrowId
      rcases List.mem_append.mp hrow with hrow | hrow
      · exact (List.mem_filter.mp hrow).1
      · rw [List.mem_singleton.mp hrow] at hrowId
        exact absurd (hid.trans hrowId.symm) (hfresh known hknown)
    refine ⟨?_, fun row hrow hrowId => h.host row (hold row hrow hrowId) hrowId,
      fun row hrow hrowId => h.origin row (hold row hrow hrowId) hrowId⟩
    by_cases hsame : known.operationId = active.operationId
    · exact ⟨active, by simp, hsame.symm.trans hid⟩
    · refine ⟨known, ?_, hid⟩
      simp only [List.mem_append, List.mem_filter, decide_eq_true_eq] at hknown ⊢
      rcases hknown with hrow | hrow
      · exact Or.inl (Or.inl ⟨hrow, hsame⟩)
      · exact Or.inr (Or.inl hrow)

theorem away_rowChange {state : HandoffQueueStoreState} {op : HandoffOp}
    {row row' : HandoffRow} (hrow : row ∈ state.rows) (hrowId : row.operationId = operationId)
    (hhost : row.hostGeneration ≠ origin)
    (horigin : row.predecessorGeneration = some origin → row.successorGeneration = some winner)
    (hop : ¬ BringsBack operationId origin winner state op)
    (hchange : RowChange state op row row') :
    row'.hostGeneration ≠ origin ∧
      (row'.predecessorGeneration = some origin → row'.successorGeneration = some winner) := by
  cases hchange with
  | @transferred fence now _ hfrom hnew =>
    have hto : fence.toGeneration ≠ origin := by
      rintro rfl
      exact hop (Or.inr ⟨fence.fromGeneration, now, by rw [hrowId],
        row, hrow, hrowId, hnew, hfrom⟩)
    refine ⟨hto, fun heq => ?_⟩
    have hback : row.hostGeneration = origin := hfrom.trans (Option.some.inj heq)
    exact absurd hback hhost
  | @released generation now _ hsuccessor =>
    rw [releaseRow_of_successor hsuccessor]
    refine ⟨?_, fun heq => by cases heq⟩
    show row.predecessorGeneration.getD row.hostGeneration ≠ origin
    cases hpredecessor : row.predecessorGeneration with
    | none => exact hhost
    | some predecessor =>
      rintro rfl
      have hwinner : generation = winner :=
        Option.some.inj (hsuccessor.symm.trans (horigin hpredecessor))
      exact hop (Or.inl ⟨now, by rw [hwinner]⟩)
  | _ => exact ⟨hhost, horigin⟩

/-- **A lease given away stays away** over every call that neither fails the winner nor
transfers the row back. -/
theorem away_step {state : HandoffQueueStoreState} {op : HandoffOp} (hinv : StoreInv state)
    (h : Away operationId origin winner state.rows state.history)
    (hop : ¬ BringsBack operationId origin winner state op) :
    Away operationId origin winner (step state op).1.rows (step state op).1.history := by
  by_cases henqueue : ∃ inputs now, op = .enqueue inputs now
  · obtain ⟨inputs, now, rfl⟩ := henqueue
    show Away _ _ _ (enqueueLoop now state inputs).1.rows (enqueueLoop now state inputs).2
    induction inputs using List.reverseRecOn with
    | nil =>
      show Away _ _ _ (Table.ofList state.rows : RowsById).rows state.history
      rw [rowsById_rows hinv.distinct]
      exact h
    | append_singleton inputs input ih =>
      rw [enqueueLoop_concat]
      refine away_enqueueInput (ih ?_)
      rintro (⟨_, heq⟩ | ⟨_, _, heq, -⟩)
      · cases heq
      · cases heq
  · obtain ⟨f, hrows, hhistory, hchange⟩ :=
      step_rewrites hinv.distinct op fun inputs now heq => henqueue ⟨inputs, now, heq⟩
    rw [hrows, hhistory]
    have hfrom : ∀ row' ∈ state.rows.map f, row'.operationId = operationId →
        row'.hostGeneration ≠ origin ∧ (row'.predecessorGeneration = some origin →
          row'.successorGeneration = some winner) := by
      intro row' hrow' hrowId'
      obtain ⟨row, hrow, rfl⟩ := List.mem_map.mp hrow'
      have hrowId : row.operationId = operationId :=
        (hchange row hrow).operationId_eq.symm.trans hrowId'
      exact away_rowChange hrow hrowId (h.host row hrow hrowId) (h.origin row hrow hrowId) hop
        (hchange row hrow)
    refine ⟨?_, fun row' hrow' hrowId' => (hfrom row' hrow' hrowId').1,
      fun row' hrow' hrowId' => (hfrom row' hrow' hrowId').2⟩
    obtain ⟨known, hknown, hid⟩ := h.known
    rcases List.mem_append.mp hknown with hrow | hold
    · exact ⟨f known, List.mem_append_left _ (List.mem_map_of_mem hrow),
        (hchange known hrow).operationId_eq.trans hid⟩
    · exact ⟨known, List.mem_append_right _ hold, hid⟩

/-- A transfer to another generation puts the row away. -/
theorem away_of_transfers {state : HandoffQueueStoreState} (hinv : StoreInv state)
    (hne : winner ≠ origin) (h : Transfers state operationId ⟨origin, winner⟩) (now : String) :
    Away operationId origin winner
      (step state (.claim operationId ⟨origin, winner⟩ now)).1.rows
      (step state (.claim operationId ⟨origin, winner⟩ now)).1.history := by
  have hrows : (step state (.claim operationId ⟨origin, winner⟩ now)).1.rows =
      state.rows.map (rewriteAt operationId (transferredRow ⟨origin, winner⟩ now)) :=
    ((claim_spec hinv.distinct operationId ⟨origin, winner⟩ now).2.2 h).2
  have hmoved : ∀ row' ∈ state.rows.map
      (rewriteAt operationId (transferredRow ⟨origin, winner⟩ now)),
      row'.operationId = operationId →
        row'.hostGeneration = winner ∧ row'.successorGeneration = some winner := by
    intro row' hrow' hrowId'
    obtain ⟨row, -, rfl⟩ := List.mem_map.mp hrow'
    by_cases hid : row.operationId = operationId
    · simp only [rewriteAt, if_pos hid]
      exact ⟨rfl, rfl⟩
    · simp only [rewriteAt, if_neg hid] at hrowId'
      exact absurd hrowId' hid
  rw [hrows]
  obtain ⟨row, hrow, hid, -⟩ := h
  refine ⟨⟨transferredRow ⟨origin, winner⟩ now row, List.mem_append_left _ ?_, hid⟩, ?_, ?_⟩
  · exact List.mem_map.mpr ⟨row, hrow, by simp [rewriteAt, hid]⟩
  · intro row' hrow' hrowId'
    rw [(hmoved row' hrow' hrowId').1]
    exact hne
  · intro row' hrow' hrowId' _
    exact (hmoved row' hrow' hrowId').2

/-- **The fence.**  When a generation's lease is transferred twice, the winner of the
first transfer was failed, or the row was transferred back, in between. -/
theorem transfer_again {pre mid : List HandoffOp} {loser now : String}
    (hne : winner ≠ origin)
    (hfirst : Transfers (run pre) operationId ⟨origin, winner⟩)
    (hsecond : Transfers (run (pre ++ .claim operationId ⟨origin, winner⟩ now :: mid))
      operationId ⟨origin, loser⟩) :
    ∃ front op back, mid = front ++ op :: back ∧
      BringsBack operationId origin winner
        (run (pre ++ .claim operationId ⟨origin, winner⟩ now :: front)) op := by
  have hstart := away_of_transfers (run_inv pre) hne hfirst now
  have hinv := storeInv_step (run_inv pre) (.claim operationId ⟨origin, winner⟩ now)
  rw [run_append, Runs.after_cons] at hsecond
  rcases Runs.after_unless (I := StoreInv)
    (P := fun state => Away operationId origin winner state.rows state.history)
    (E := BringsBack operationId origin winner) (fun _ op h => storeInv_step h op)
    (fun _ _ hinv h hop => away_step hinv h hop) hinv hstart mid with
    haway | ⟨front, op, back, hmid, hop⟩
  · obtain ⟨row, hrow, hid, -, hhost⟩ := hsecond
    exact absurd hhost (haway.host row hrow hid)
  · refine ⟨front, op, back, hmid, ?_⟩
    rw [run_append, Runs.after_cons]
    exact hop

end Away

/-! ### The contract -/

/-- **Ownership and fence.**  In every state reached by calls of the queue on an empty
store: one active row for a conversation and no operation id twice; a history that later
calls only extend; links that are both set or both unset and name the host; pending rows
without a successor and draining rows on a draining generation; and between two transfers
of a row from one generation, a rollback of the first winner or a transfer back. -/
theorem ownership_and_fence (ops : List HandoffOp) :
    (((run ops).rows.map (fun row => row.conversationId)).Nodup ∧
      (((run ops).rows ++ (run ops).history).map (fun row => row.operationId)).Nodup) ∧
    (∀ later, (run ops).history <+: (run (ops ++ later)).history) ∧
    (∀ row ∈ (run ops).rows ++ (run ops).history,
      (row.predecessorGeneration = none ∧ row.successorGeneration = none) ∨
        ∃ predecessor successor, row.predecessorGeneration = some predecessor ∧
          row.successorGeneration = some successor ∧ row.hostGeneration = successor) ∧
    (∀ row ∈ (run ops).rows ++ (run ops).history,
      (row.status = .pending → row.successorGeneration = none) ∧
        (row.status = .draining → row.hostGeneration ∈ (run ops).drainingGenerations)) ∧
    (∀ pre operationId origin winner loser now mid later post,
      ops = pre ++ .claim operationId ⟨origin, winner⟩ now :: mid ++
        .claim operationId ⟨origin, loser⟩ later :: post →
      winner ≠ loser → winner ≠ origin → loser ≠ origin →
      Transfers (run pre) operationId ⟨origin, winner⟩ →
      Transfers (run (pre ++ .claim operationId ⟨origin, winner⟩ now :: mid))
        operationId ⟨origin, loser⟩ →
      ∃ front op back, mid = front ++ op :: back ∧
        BringsBack operationId origin winner
          (run (pre ++ .claim operationId ⟨origin, winner⟩ now :: front)) op) := by
  have hinv := run_inv ops
  refine ⟨⟨hinv.conversations, ?_⟩, history_prefix ops, ?_, ?_, ?_⟩
  · rw [List.map_append, List.nodup_append]
    refine ⟨hinv.rowIds, hinv.historyIds, ?_⟩
    intro id hid id' hid'
    obtain ⟨row, hrow, rfl⟩ := List.mem_map.mp hid
    obtain ⟨old, hold, rfl⟩ := List.mem_map.mp hid'
    exact hinv.disjoint row hrow old hold
  · intro row hrow
    rcases (hinv.owned row hrow).links with hnone | ⟨⟨predecessor, hpredecessor⟩, hsuccessor⟩
    · exact Or.inl hnone
    · exact Or.inr ⟨predecessor, _, hpredecessor, hsuccessor, rfl⟩
  · intro row hrow
    exact ⟨(hinv.owned row hrow).pending, (hinv.owned row hrow).draining⟩
  · intro pre operationId origin winner loser now mid later post _ _ hne _ hfirst hsecond
    exact transfer_again hne hfirst hsecond

end Delegatus.HandoffQueue
