import Delegatus.HandoffDeliveries

/-!
# Acknowledgements across a rollback

The acknowledgements of an active row are kept in one list, whichever successor made
them, and `failCandidate` resets that list to what the conversation's history records.
A row that is claimed again without a new enqueue therefore loses, with the failed
candidate's acknowledgements, those of the earlier successors.

`Standing` is an acknowledgement whose successor was not failed since.  The queue keeps
standing acknowledgements out of every replay exactly when each rollback finds the ones
made by other successors already in the history (`RollbacksSpareOthers`,
`durable_iff_rollbacksSpareOthers`).
-/

namespace Delegatus.HandoffQueue

/-- The call fails the candidate `generation`. -/
def Fails (generation : String) (op : HandoffOp) : Prop :=
  ∃ now, op = .failCandidate generation now

/-- `generation` acknowledged the delivery during the run and was not failed since. -/
def Standing (ops : List HandoffOp) (conversationId generation id : String) : Prop :=
  Runs.Since step (AcknowledgedBy conversationId generation id) (Fails generation) emptyStore
    ops

/-- No successful claim of the run returns a delivery that was acknowledged before it by
a successor which the run does not fail afterwards. -/
def Durable (ops : List HandoffOp) : Prop :=
  ∀ pre operationId fence now post, ops = pre ++ .claim operationId fence now :: post →
    (claim operationId fence now (run pre)).2.ok = true →
    ∀ row ∈ (run pre).rows, row.operationId = operationId →
      ∀ generation id, Standing pre row.conversationId generation id →
        (∀ later ∈ post, ¬ Fails generation later) →
        id ∉ deliveryIds (claim operationId fence now (run pre)).2.replay

/-- Whenever the run fails a candidate, the history of each row the candidate holds
already records every standing acknowledgement of the other successors. -/
def RollbacksSpareOthers (ops : List HandoffOp) : Prop :=
  ∀ pre candidate now post, ops = pre ++ .failCandidate candidate now :: post →
    ∀ row ∈ (run pre).rows, row.successorGeneration = some candidate →
      ∀ generation id, generation ≠ candidate →
        Standing pre row.conversationId generation id →
        id ∈ acknowledgedDeliveryIds (run pre).history row.conversationId

/-! ### Standing acknowledgements are inherited -/

/-- The conversation has an active row and its active row records the delivery. -/
structure Inherited (rows : List HandoffRow) (conversationId id : String) : Prop where
  active : ∃ row ∈ rows, row.conversationId = conversationId
  recorded : ∀ row ∈ rows, row.conversationId = conversationId → id ∈ row.replayedDeliveryIds

section Inherited

variable {conversationId id : String}

theorem inherited_enqueueInput {now : String} {acc : RowsById × List HandoffRow}
    {input : HandoffRowInput} (h : Inherited acc.1.rows conversationId id) :
    Inherited (enqueueInput now acc input).1.rows conversationId id := by
  generalize hrows : (enqueueInput now acc input).1.rows = rows
  generalize hhistory : (enqueueInput now acc input).2 = history
  have hchange := enqueueInput_change now acc input
  rw [hrows, hhistory] at hchange
  obtain ⟨holder, hholder, hholderConv⟩ := h.active
  cases hchange with
  | kept _ => exact h
  | added _ _ hnone =>
    refine ⟨⟨holder, List.mem_append_left _ hholder, hholderConv⟩, ?_⟩
    intro row hrow hconv
    rcases List.mem_append.mp hrow with hrow | hrow
    · exact h.recorded row hrow hconv
    · -- the conversation has an active row already, so the new row is not of it
      rw [List.mem_singleton.mp hrow] at hconv
      exact absurd (hholderConv.trans hconv.symm) (hnone holder hholder)
  | @replaced _ _ active hactive hconversation _ =>
    have hnew : ∀ history, input.conversationId = conversationId →
        id ∈ (enqueuedRow (history ++ [active]) (some active) input now).replayedDeliveryIds := by
      intro history hinput
      refine mem_acknowledgedDeliveryIds_concat.mpr (Or.inr ⟨hconversation, ?_⟩)
      exact h.recorded active hactive (hconversation.trans hinput)
    constructor
    · by_cases hinput : input.conversationId = conversationId
      · exact ⟨_, List.mem_append_right _ (List.mem_singleton.mpr rfl), hinput⟩
      · refine ⟨holder, List.mem_append_left _ (List.mem_filter.mpr ⟨hholder, ?_⟩), hholderConv⟩
        rw [decide_eq_true_eq]
        intro hsame
        obtain rfl := acc.1.eq_of_key_eq hholder hactive hsame
        exact hinput (hconversation.symm.trans hholderConv)
    · intro row hrow hconv
      rcases List.mem_append.mp hrow with hrow | hrow
      · exact h.recorded row (List.mem_filter.mp hrow).1 hconv
      · rw [List.mem_singleton.mp hrow] at hconv ⊢
        exact hnew acc.2 hconv

/-- **One call keeps an inherited acknowledgement**, unless it fails the candidate that
holds the row and the history does not record the acknowledgement. -/
theorem inherited_step {state : HandoffQueueStoreState} (hinv : StoreInv state)
    {op : HandoffOp} (h : Inherited state.rows conversationId id)
    (hspared : ∀ candidate now, op = .failCandidate candidate now →
      ∀ row ∈ state.rows, row.conversationId = conversationId →
        row.successorGeneration = some candidate →
        id ∈ acknowledgedDeliveryIds state.history conversationId) :
    Inherited (step state op).1.rows conversationId id := by
  by_cases henqueue : ∃ inputs now, op = .enqueue inputs now
  · obtain ⟨inputs, now, rfl⟩ := henqueue
    show Inherited (enqueueLoop now state inputs).1.rows _ _
    clear hspared
    induction inputs using List.reverseRecOn with
    | nil =>
      show Inherited (Table.ofList state.rows : RowsById).rows _ _
      rw [rowsById_rows hinv.distinct]
      exact h
    | append_singleton inputs input ih =>
      rw [enqueueLoop_concat]
      exact inherited_enqueueInput ih
  · obtain ⟨f, hrows, -, hchange⟩ :=
      step_rewrites hinv.distinct op fun inputs now heq => henqueue ⟨inputs, now, heq⟩
    rw [hrows]
    obtain ⟨holder, hholder, hholderConv⟩ := h.active
    refine ⟨⟨f holder, List.mem_map_of_mem hholder,
      (hchange holder hholder).conversationId_eq.trans hholderConv⟩, ?_⟩
    intro row' hrow' hconv'
    obtain ⟨row, hrow, rfl⟩ := List.mem_map.mp hrow'
    have hconv : row.conversationId = conversationId :=
      (hchange row hrow).conversationId_eq.symm.trans hconv'
    rcases (hchange row hrow).replayed_cases (h.recorded row hrow hconv) with
      hkept | ⟨⟨candidate, now, hop, hsuccessor⟩, hnot⟩
    · exact hkept
    · exact absurd (hspared candidate now hop row hrow hconv hsuccessor) (hconv ▸ hnot)

end Inherited

theorem RollbacksSpareOthers.front {ops : List HandoffOp} {op : HandoffOp}
    (h : RollbacksSpareOthers (ops ++ [op])) : RollbacksSpareOthers ops := by
  rintro pre candidate now post rfl
  exact h pre candidate now (post ++ [op]) (by simp)

theorem inherited_of_acknowledgedBy {state : HandoffQueueStoreState} (hinv : StoreInv state)
    {op : HandoffOp} {conversationId generation id : String}
    (h : AcknowledgedBy conversationId generation id state op) :
    Inherited (step state op).1.rows conversationId id := by
  obtain ⟨row, hrow, hconv, hid⟩ := recorded_of_acknowledgedBy hinv h
  refine ⟨⟨row, hrow, hconv⟩, fun other hother hother' => ?_⟩
  rw [(storeInv_step hinv op).eq_of_conversation hother hrow (hother'.trans hconv.symm)]
  exact hid

/-- While rollbacks spare the other successors, every standing acknowledgement is on the
conversation's active row. -/
theorem standing_inherited {ops : List HandoffOp} (hspare : RollbacksSpareOthers ops)
    {conversationId generation id : String}
    (h : Standing ops conversationId generation id) :
    Inherited (run ops).rows conversationId id := by
  induction ops using List.reverseRecOn with
  | nil => exact (Runs.not_since_nil step _ _ emptyStore h).elim
  | append_singleton ops op ih =>
    have hinv := run_inv ops
    rw [run_concat]
    rcases (Runs.since_concat ..).mp h with hmade | ⟨hstands, hkept⟩
    · exact inherited_of_acknowledgedBy hinv hmade
    · refine inherited_step hinv (ih hspare.front hstands) ?_
      rintro candidate now rfl row hrow rfl hsuccessor
      have hne : generation ≠ candidate := by
        rintro rfl
        exact hkept ⟨now, rfl⟩
      exact hspare ops candidate now [] rfl row hrow hsuccessor generation id hne hstands

/-- A standing acknowledgement entered the queue, so its delivery is held. -/
theorem standing_held {ops : List HandoffOp} {conversationId generation id : String}
    (h : Standing ops conversationId generation id) :
    Held (run ops).rows (run ops).history conversationId id := by
  obtain ⟨pre, op, post, heq, hmade, -⟩ := h
  exact entered_held ⟨pre, op, post, heq, Or.inr ⟨generation, hmade⟩⟩

/-! ### The exact condition -/

theorem durable_of_rollbacksSpareOthers {ops : List HandoffOp}
    (hspare : RollbacksSpareOthers ops) : Durable ops := by
  rintro pre operationId fence now post rfl hok row hrow hrowId generation id hstands -
  have hpre : RollbacksSpareOthers pre := by
    rintro front candidate later back rfl
    exact hspare front candidate later (back ++ .claim operationId fence now :: post) (by simp)
  have hinherited := standing_inherited hpre hstands
  obtain ⟨claimed, hclaimed, hclaimedId, hreplay, -⟩ :=
    (claim_spec (run_inv pre).distinct operationId fence now).2.1 hok
  obtain rfl := eq_of_operationId (run_inv pre).distinct hrow hclaimed
    (hclaimedId.trans hrowId.symm)
  rw [hreplay, mem_deliveryIds_replayOf]
  rintro ⟨-, hfresh⟩
  exact hfresh (hinherited.recorded claimed hrow rfl)

/-- The released row of a rollback can be claimed from its host by any generation. -/
theorem claim_released_ok {state : HandoffQueueStoreState} (hinv : StoreInv state)
    {row : HandoffRow} (hrow : row ∈ state.rows) {candidate later : String}
    (hsuccessor : row.successorGeneration = some candidate) (next now : String) :
    (claim row.operationId
      ⟨(releaseRow state candidate later row).hostGeneration, next⟩ now
      (failCandidate candidate later state).1).2.ok = true := by
  have hinv' : StoreInv (failCandidate candidate later state).1 :=
    storeInv_step hinv (.failCandidate candidate later)
  refine ((claim_spec hinv'.distinct _ _ now).2.2 ?_).1
  refine ⟨releaseRow state candidate later row, ?_, releaseRow_operationId .., ?_, rfl⟩
  · rw [failCandidate_rows hinv.distinct]
    exact List.mem_map_of_mem hrow
  · rw [releaseRow_of_successor hsuccessor]
    simp [alreadyClaimed]

/-- **When acknowledgements survive rollbacks.**  In a run whose rollbacks spare the
acknowledgements of the other successors, no claim returns a standing acknowledgement;
and only in such a run: after a rollback that does not, a next claim on the released row
returns one. -/
theorem durable_iff_rollbacksSpareOthers (ops : List HandoffOp) :
    (RollbacksSpareOthers ops → Durable ops) ∧
      (RollbacksSpareOthers ops ↔
        ∀ pre, pre <+: ops → ∀ operationId fence now,
          Durable (pre ++ [.claim operationId fence now])) := by
  refine ⟨durable_of_rollbacksSpareOthers, ?_, ?_⟩
  · rintro hspare pre ⟨post, rfl⟩ operationId fence now
    apply durable_of_rollbacksSpareOthers
    intro front candidate later back heq
    rcases List.eq_nil_or_concat back with rfl | ⟨back, last, rfl⟩
    · have hlast := (List.append_inj' heq rfl).2
      cases hlast
    · have hsplit : pre ++ [.claim operationId fence now] =
          (front ++ .failCandidate candidate later :: back) ++ [last] := by
        rw [heq]
        simp [List.concat_eq_append]
      obtain ⟨rfl, -⟩ := List.append_inj' hsplit rfl
      exact hspare front candidate later (back ++ post) (by simp)
  · rintro hdurable pre candidate later post rfl row hrow hsuccessor generation id hne hstands
    by_contra hnot
    have hinv := run_inv pre
    have hstate : run (pre ++ [.failCandidate candidate later]) =
        (failCandidate candidate later (run pre)).1 := run_concat pre _
    let fence : ClaimFence :=
      ⟨(releaseRow (run pre) candidate later row).hostGeneration, generation⟩
    have hok : (claim row.operationId fence later
        (failCandidate candidate later (run pre)).1).2.ok = true :=
      claim_released_ok hinv hrow hsuccessor generation later
    have hstands' : Standing (pre ++ [.failCandidate candidate later]) row.conversationId
        generation id := by
      refine (Runs.since_concat ..).mpr (Or.inr ⟨hstands, ?_⟩)
      rintro ⟨_, heq⟩
      cases heq
      exact hne rfl
    have hreleased : releaseRow (run pre) candidate later row ∈
        (run (pre ++ [.failCandidate candidate later])).rows := by
      rw [hstate, failCandidate_rows hinv.distinct]
      exact List.mem_map_of_mem hrow
    have hconv : (releaseRow (run pre) candidate later row).conversationId =
        row.conversationId := by
      rw [releaseRow_of_successor hsuccessor]
    rw [← hstate] at hok
    rw [← hconv] at hstands'
    -- the claim of the released row by the next generation returns the delivery
    have hreplay := claim_offers_released hrow hsuccessor (standing_held hstands) hnot hok
    have hprefix : pre ++ [.failCandidate candidate later] <+:
        pre ++ .failCandidate candidate later :: post := ⟨post, by simp⟩
    have hnone : ∀ last ∈ ([] : List HandoffOp), ¬ Fails generation last := by simp
    have hclaimed := hdurable _ hprefix row.operationId fence later
      (pre ++ [.failCandidate candidate later]) row.operationId fence later [] rfl
    have hfresh := hclaimed hok (releaseRow (run pre) candidate later row) hreleased
      (releaseRow_operationId ..) generation id hstands' hnone
    exact hfresh hreplay

/-! ### A chain of two promotions loses an acknowledgement -/

/-- A conversation with one waiting delivery, hosted by `g0`. -/
def chainedInput : HandoffRowInput where
  operationId := "handoff"
  conversationId := "conversation"
  engine := .claude
  engineSessionId := "session"
  kind := .root
  parentConversationId := none
  hostGeneration := "g0"
  accountId := none
  turnState := .idle
  pendingDeliveries := [⟨"delivery", none, 1⟩]

/-- `g1` claims the row and acknowledges its delivery; `g2` claims it from `g1` and is
rolled back. -/
def chainedPromotions : List HandoffOp :=
  [.enqueue [chainedInput] "t0",
    .claim "handoff" ⟨"g0", "g1"⟩ "t1",
    .acknowledgeReplay "handoff" "g1" ["delivery"] "t2",
    .claim "handoff" ⟨"g1", "g2"⟩ "t3",
    .failCandidate "g2" "t4"]

/-- The rollback of `g2` forgets what `g1` acknowledged: the claim by `g3` returns it. -/
theorem chainedPromotions_not_durable :
    ¬ Durable (chainedPromotions ++ [.claim "handoff" ⟨"g1", "g3"⟩ "t5"]) := by
  intro hdurable
  have hactive : ∀ n, ((run (chainedPromotions.take n)).rows.find? (fun row =>
      row.operationId = "handoff" ∧ row.conversationId = "conversation")).isSome = true →
      ∃ row ∈ (run (chainedPromotions.take n)).rows, row.operationId = "handoff" ∧
        row.conversationId = "conversation" := by
    intro n hsome
    simpa using hsome
  have hstands : Standing chainedPromotions "conversation" "g1" "delivery" := by
    refine ⟨chainedPromotions.take 2, .acknowledgeReplay "handoff" "g1" ["delivery"] "t2",
      chainedPromotions.drop 3, rfl,
      ⟨by decide, rfl, by decide, hactive 2 (by decide)⟩, ?_⟩
    rintro later hlater ⟨now, rfl⟩
    simp [chainedPromotions] at hlater
  have hclaim := hdurable chainedPromotions "handoff" ⟨"g1", "g3"⟩ "t5" [] rfl (by decide)
  obtain ⟨row, hmem, hid, hconv⟩ := hactive 5 (by decide)
  have hfresh := hclaim row hmem hid "g1" "delivery" (hconv ▸ hstands) (by simp)
  exact hfresh (by decide)

end Delegatus.HandoffQueue
