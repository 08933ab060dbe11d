import Delegatus.HandoffDeliveries

/-!
# The order of a replacement's deliveries

A row that replaces a claimed, terminal or failed one takes over its unacknowledged deliveries.
`replacementDeliveries` puts those that the incoming row does not repeat before all incoming ones, so
a repeated delivery falls behind every one that is not.  The previous order survives exactly when the
incoming row repeats the last of the previous deliveries, in their order (`replacement_keeps_order`).
-/

namespace Delegatus.HandoffQueue

/-- The deliveries that wait without an acknowledgement, in durable order. -/
def unacknowledged (acknowledgedIds : List String) (deliveries : List HandoffDelivery) : List String :=
  (deliveryIds (orderedDeliveries deliveries)).filter fun id => id ∉ acknowledgedIds

/-- What a replay after a replacement promises: the previous deliveries are all there in their order,
and the incoming ones, in theirs, are the last. -/
structure KeepsOrder (previous incoming replay : List String) : Prop where
  order : (replay.filter fun id => id ∈ previous) = previous
  place : ∃ before, replay = before ++ incoming ∧ ∀ id ∈ before, id ∈ previous

/-- A repeated delivery is not before one that is not repeated, and the incoming row has the repeated
ones in the previous order. -/
structure RepeatsLast (previous incoming : List String) : Prop where
  last : previous.Pairwise fun id later => id ∈ incoming → later ∈ incoming
  order : (incoming.filter fun id => id ∈ previous) = previous.filter fun id => id ∈ incoming

/-! ### Lists that end with what a test selects -/

theorem filter_split_iff {α : Type*} {p : α → Prop} [DecidablePred p] {l : List α} :
    (l.filter fun a => ¬p a) ++ (l.filter fun a => p a) = l ↔ l.Pairwise fun a b => p a → p b := by
  constructor
  · intro h
    rw [← h, List.pairwise_append]
    refine ⟨?_, ?_, ?_⟩
    · apply List.pairwise_of_forall_mem_list
      intro a ha b _ hpa
      simp only [List.mem_filter, decide_eq_true_eq] at ha
      exact absurd hpa ha.2
    · apply List.pairwise_of_forall_mem_list
      intro a _ b hb _
      simpa using (List.mem_filter.mp hb).2
    · intro a _ b hb _
      simpa using (List.mem_filter.mp hb).2
  · intro h
    induction l with
    | nil => rfl
    | cons a rest ih =>
      obtain ⟨hhead, hrest⟩ := List.pairwise_cons.mp h
      by_cases hpa : p a
      · have hnone : (rest.filter fun b => ¬p b) = [] := by
          rw [List.filter_eq_nil_iff]
          intro b hb
          simpa using hhead b hb hpa
        rw [List.filter_cons_of_neg (by simpa using hpa), List.filter_cons_of_pos (by simpa using hpa), hnone,
          List.nil_append, List.filter_eq_self.mpr]
        intro b hb
        simpa using hhead b hb hpa
      · rw [List.filter_cons_of_pos (by simpa using hpa), List.filter_cons_of_neg (by simpa using hpa),
          List.cons_append, ih hrest]

/-- Previous deliveries that are not repeated, and then the incoming ones. -/
theorem keepsOrder_iff (previous incoming : List String) :
    KeepsOrder previous incoming ((previous.filter fun id => id ∉ incoming) ++ incoming) ↔
      RepeatsLast previous incoming := by
  have hsplit : (((previous.filter fun id => id ∉ incoming) ++ incoming).filter fun id => id ∈ previous) =
      (previous.filter fun id => id ∉ incoming) ++ incoming.filter fun id => id ∈ previous := by
    rw [List.filter_append, List.filter_eq_self.mpr]
    intro id hid
    simpa using (List.mem_filter.mp hid).1
  constructor
  · rintro ⟨horder, -⟩
    rw [hsplit] at horder
    have hrepeated : (incoming.filter fun id => id ∈ previous) = previous.filter fun id => id ∈ incoming := by
      have hnone : ((previous.filter fun id => id ∉ incoming).filter fun id => id ∈ incoming) = [] := by
        rw [List.filter_eq_nil_iff]
        intro id hid
        simpa using (List.mem_filter.mp hid).2
      have hall : ((incoming.filter fun id => id ∈ previous).filter fun id => id ∈ incoming) =
          incoming.filter fun id => id ∈ previous := by
        rw [List.filter_eq_self]
        intro id hid
        simpa using (List.mem_filter.mp hid).1
      have hfilter := congrArg (List.filter fun id => id ∈ incoming) horder
      rwa [List.filter_append, hnone, hall, List.nil_append] at hfilter
    refine ⟨?_, hrepeated⟩
    rw [hrepeated] at horder
    exact filter_split_iff.mp horder
  · rintro ⟨hlast, hrepeated⟩
    constructor
    · rw [hsplit, hrepeated]
      exact filter_split_iff.mpr hlast
    · exact ⟨_, rfl, fun id hid => (List.mem_filter.mp hid).1⟩

/-! ### The replay of a replacement -/

theorem deliveryIds_filter (deliveries : List HandoffDelivery) (ids : List String) :
    deliveryIds (deliveries.filter fun delivery => delivery.deliveryId ∉ ids) =
      (deliveryIds deliveries).filter fun id => id ∉ ids := by
  rw [deliveryIds, deliveryIds, List.filter_map]
  rfl

theorem deliveryIds_append (left right : List HandoffDelivery) :
    deliveryIds (left ++ right) = deliveryIds left ++ deliveryIds right := List.map_append

/-- Renumbered deliveries are in durable order. -/
theorem orderedDeliveries_renumbered (deliveries : List HandoffDelivery) :
    orderedDeliveries (renumbered deliveries) = renumbered deliveries := by
  apply List.Pairwise.insertionSort_eq
  rw [List.pairwise_iff_getElem]
  intro i j hi hj hlt
  simp only [renumbered, List.getElem_mapIdx]
  omega

theorem replay_replacement {history : List HandoffRow} {previous : HandoffRow} {input : HandoffRowInput}
    (hconversation : previous.conversationId = input.conversationId) (now : String) :
    let acknowledgedIds := acknowledgedDeliveryIds (history ++ [previous]) input.conversationId
    deliveryIds (replayOf (enqueuedRow (history ++ [previous]) (some previous) input now)) =
      ((unacknowledged acknowledgedIds previous.pendingDeliveries).filter
        fun id => id ∉ unacknowledged acknowledgedIds input.pendingDeliveries) ++
        unacknowledged acknowledgedIds input.pendingDeliveries := by
  intro acknowledgedIds
  have hown : ∀ id, id ∉ acknowledgedIds → id ∉ previous.replayedDeliveryIds := fun id hnot hmem =>
    hnot (mem_acknowledgedDeliveryIds_concat.mpr (Or.inr ⟨hconversation, hmem⟩))
  have hrow : replayOf (enqueuedRow (history ++ [previous]) (some previous) input now) =
      (orderedDeliveries (replacementDeliveries previous input.pendingDeliveries)).filter
        fun delivery => delivery.deliveryId ∉ acknowledgedIds := rfl
  rw [hrow, deliveryIds_filter, replacementDeliveries, orderedDeliveries_renumbered, deliveryIds_renumbered,
    deliveryIds_append, List.filter_append]
  simp only [deliveryIds_filter, unacknowledged]
  simp only [List.filter_filter]
  congr 1
  · apply List.filter_congr
    intro id _
    by_cases hacknowledged : id ∈ acknowledgedIds
    · simp [hacknowledged]
    · simp [hacknowledged, hown id hacknowledged, List.mem_filter]
  · apply List.filter_congr
    intro id _
    by_cases hacknowledged : id ∈ acknowledgedIds
    · simp [hacknowledged]
    · simp [hacknowledged, hown id hacknowledged]

/-- The next claim of a row that replaced another one offers its replay. -/
theorem claim_replacement {state : HandoffQueueStoreState} {previous : HandoffRow} {input : HandoffRowInput}
    (hactive : activeRow (Table.ofList state.rows) input.conversationId = some previous)
    (hstatus : previous.status ≠ .pending ∧ previous.status ≠ .draining)
    (hnew : knownOperation (Table.ofList state.rows) state.history input.operationId = false)
    {fence : ClaimFence} (hfence : fence.fromGeneration = input.hostGeneration) (now later : String) :
    (claim input.operationId fence later (enqueue [input] now state).1).2.replay =
      replayOf (enqueuedRow (state.history ++ [previous]) (some previous) input now) := by
  have hrows : (enqueue [input] now state).1.rows =
      (((Table.ofList state.rows : RowsById).delete previous.operationId).set
        (enqueuedRow (state.history ++ [previous]) (some previous) input now)).rows := by
    simp only [enqueue, mutate, List.foldl_cons, List.foldl_nil, enqueueInput, hnew, hactive, hstatus,
      Bool.false_eq_true, or_self, if_false]
  have hget := Table.get?_set ((Table.ofList state.rows : RowsById).delete previous.operationId)
    (enqueuedRow (state.history ++ [previous]) (some previous) input now) input.operationId
  have hkey : (enqueuedRow (state.history ++ [previous]) (some previous) input now).operationId =
      input.operationId := rfl
  rw [hkey, if_pos (Eq.refl input.operationId)] at hget
  simp only [claim, mutate, hrows, Table.ofList_rows, hget]
  have hopen : alreadyClaimed (enqueuedRow (state.history ++ [previous]) (some previous) input now) fence =
      false := rfl
  have hhost : (enqueuedRow (state.history ++ [previous]) (some previous) input now).hostGeneration =
      fence.fromGeneration := hfence.symm
  simp only [hopen, hhost, Bool.false_eq_true, ne_eq, not_true_eq_false, if_false]

/-- **A replacement keeps the order of the deliveries** exactly when the incoming row repeats the last
of them in their order. -/
theorem replacement_keeps_order (state : HandoffQueueStoreState) (previous : HandoffRow)
    (input : HandoffRowInput) (fence : ClaimFence) (now later : String)
    (hactive : activeRow (Table.ofList state.rows) input.conversationId = some previous)
    (hstatus : previous.status = .claimed ∨ previous.status = .terminal ∨ previous.status = .failed)
    (hnew : knownOperation (Table.ofList state.rows) state.history input.operationId = false)
    (hfence : fence.fromGeneration = input.hostGeneration) :
    let acknowledgedIds := acknowledgedDeliveryIds (state.history ++ [previous]) input.conversationId
    let waiting := unacknowledged acknowledgedIds previous.pendingDeliveries
    let incoming := unacknowledged acknowledgedIds input.pendingDeliveries
    KeepsOrder waiting incoming
        (deliveryIds (claim input.operationId fence later (enqueue [input] now state).1).2.replay) ↔
      RepeatsLast waiting incoming := by
  intro acknowledgedIds waiting incoming
  have hleft : previous.status ≠ .pending ∧ previous.status ≠ .draining := by
    rcases hstatus with h | h | h <;> simp [h]
  have hconversation : previous.conversationId = input.conversationId := by
    simpa using List.find?_some hactive
  rw [claim_replacement hactive hleft hnew hfence now later, replay_replacement hconversation now]
  exact keepsOrder_iff waiting incoming

/-! ### A repeated delivery falls behind -/

/-- A conversation that `g1` hosts, with the deliveries `waiting`. -/
def repeatingInput (operationId : String) (hostGeneration : String) (waiting : List HandoffDelivery) :
    HandoffRowInput where
  operationId := operationId
  conversationId := "conversation"
  engine := .claude
  engineSessionId := "session"
  kind := .root
  parentConversationId := none
  hostGeneration := hostGeneration
  accountId := none
  turnState := .idle
  pendingDeliveries := waiting

/-- `g1` has claimed a row with two deliveries and acknowledged none. -/
def claimedRow : HandoffRow where
  toHandoffRowInput := repeatingInput "first" "g1" [⟨"early", none, 1⟩, ⟨"late", none, 2⟩]
  status := .claimed
  predecessorGeneration := some "g0"
  successorGeneration := some "g1"
  replayedDeliveryIds := []
  interruptionOutcome := none
  lastError := none
  enqueuedAt := "t0"
  updatedAt := "t1"

theorem replacement_keeps_order_repeated :
    KeepsOrder ["early", "late"] ["late", "next"] (deliveryIds (claim "second" ⟨"g1", "g2"⟩ "t3"
      (enqueue [repeatingInput "second" "g1" [⟨"late", none, 1⟩, ⟨"next", none, 2⟩]] "t2"
        ⟨[claimedRow], [], []⟩).1).2.replay) :=
  (replacement_keeps_order ⟨[claimedRow], [], []⟩ claimedRow
    (repeatingInput "second" "g1" [⟨"late", none, 1⟩, ⟨"next", none, 2⟩]) ⟨"g1", "g2"⟩ "t2" "t3" (by decide)
    (by decide) (by decide) (by decide)).mpr ⟨by decide, by decide⟩

/-- The early delivery is repeated, the late one is not: the replay offers the late one first. -/
theorem repeated_falls_behind :
    ¬∀ (state : HandoffQueueStoreState) (previous : HandoffRow) (input : HandoffRowInput) (fence : ClaimFence)
      (now later : String),
      activeRow (Table.ofList state.rows) input.conversationId = some previous →
      previous.status = .claimed ∨ previous.status = .terminal ∨ previous.status = .failed →
      knownOperation (Table.ofList state.rows) state.history input.operationId = false →
      fence.fromGeneration = input.hostGeneration →
      KeepsOrder
        (unacknowledged (acknowledgedDeliveryIds (state.history ++ [previous]) input.conversationId)
          previous.pendingDeliveries)
        (unacknowledged (acknowledgedDeliveryIds (state.history ++ [previous]) input.conversationId)
          input.pendingDeliveries)
        (deliveryIds (claim input.operationId fence later (enqueue [input] now state).1).2.replay) := by
  intro hall
  have hkeeps := hall ⟨[claimedRow], [], []⟩ claimedRow (repeatingInput "second" "g1" [⟨"early", none, 1⟩])
    ⟨"g1", "g2"⟩ "t2" "t3" (by decide) (by decide) (by decide) (by decide)
  exact absurd hkeeps.order (by decide)

end Delegatus.HandoffQueue
