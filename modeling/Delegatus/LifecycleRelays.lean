import Delegatus.LifecycleDigest

/-!
# What a relay carries

`selectKeys` chooses at most the bounded number of shapes, and among them that of the oldest pending
event (`selected`).  The cursor of a relay is the last of the leading events whose shapes were chosen, so it
moves forward, and every pending event up to it is folded into an item (`relays`).
-/

namespace Delegatus.Lifecycle

open RowGroups (Group groups group grouped)

/-! ### The selection -/

/-- A choice among the keys, of at most the bounded number. -/
structure Selection (order : List String) (maxItems : Nat) (selected : List String) : Prop where
  nodup : selected.Nodup
  subset : selected ⊆ order
  bounded : selected.length ≤ maxItems

theorem fillSelection_extends (maxItems : Nat) (selected order : List String) :
    selected ⊆ fillSelection maxItems selected order := by
  induction order generalizing selected with
  | nil => exact List.Subset.refl _
  | cons key rest ih =>
    unfold fillSelection
    split
    · exact List.Subset.refl _
    · split
      · exact ih selected
      · exact List.Subset.trans (List.subset_append_left _ _) (ih _)

theorem Selection.fill {order : List String} {maxItems : Nat} {selected rest : List String}
    (h : Selection order maxItems selected) (hrest : rest ⊆ order) :
    Selection order maxItems (fillSelection maxItems selected rest) := by
  induction rest generalizing selected with
  | nil => exact h
  | cons key rest ih =>
    obtain ⟨hkey, htail⟩ := List.cons_subset.mp hrest
    unfold fillSelection
    split
    case isTrue => exact h
    case isFalse hroom =>
      split
      case isTrue => exact ih h htail
      case isFalse hnew =>
        refine ih ⟨?_, ?_, ?_⟩ htail
        · apply h.nodup.append (List.nodup_singleton _)
          simpa using hnew
        · exact List.append_subset.mpr ⟨h.subset, by simpa using hkey⟩
        · rw [List.length_append, List.length_singleton]
          omega

/-- Where the bound is reached, the last terminal key that was taken gives its place. -/
theorem Selection.carryOldest {order terminalKeys : List String} {maxItems : Nat} {oldestKey : String}
    (h : Selection order maxItems (terminalKeys.take maxItems)) (hmax : 0 < maxItems)
    (holdest : oldestKey ∈ order) :
    Selection order maxItems
      (Lifecycle.carryOldest terminalKeys maxItems (terminalKeys.take maxItems) oldestKey) ∧
    oldestKey ∈ Lifecycle.carryOldest terminalKeys maxItems (terminalKeys.take maxItems) oldestKey := by
  unfold Lifecycle.carryOldest
  split
  case isTrue hin => exact ⟨h, by simpa using hin⟩
  case isFalse hout =>
    have habsent : oldestKey ∉ terminalKeys.take maxItems := by simpa using hout
    refine ⟨?_, List.mem_append_right _ (List.mem_singleton_self _)⟩
    have hadd : ∀ room : List String, room.Sublist (terminalKeys.take maxItems) → room.length < maxItems →
        Selection order maxItems (room ++ [oldestKey]) := by
      intro room hroom hlength
      refine ⟨?_, ?_, ?_⟩
      · apply (h.nodup.sublist hroom).append (List.nodup_singleton _)
        intro key hkey hlast
        rw [List.mem_singleton.mp hlast] at hkey
        exact habsent (hroom.subset hkey)
      · exact List.append_subset.mpr ⟨List.Subset.trans hroom.subset h.subset, by simpa using holdest⟩
      · rw [List.length_append, List.length_singleton]
        omega
    dsimp only
    split
    case isTrue hfull =>
      have hlength := h.bounded
      have hindex : (terminalKeys.take maxItems).length - 1 < (terminalKeys.take maxItems).length := by
        omega
      have hget : terminalKeys[(terminalKeys.take maxItems).length - 1]?
          = some ((terminalKeys.take maxItems)[(terminalKeys.take maxItems).length - 1]) := by
        rw [List.getElem_take, List.getElem?_eq_getElem]
      rw [hget]
      dsimp only
      apply hadd _ List.erase_sublist
      rw [List.length_erase_of_mem (List.getElem_mem hindex)]
      omega
    case isFalse hroom => exact hadd _ (List.Sublist.refl _) (by omega)

/-- **The selection.**  It is bounded, and it holds the oldest key. -/
theorem selected {order terminalKeys : List String} {maxItems : Nat} (hmax : 0 < maxItems)
    (hnodup : order.Nodup) (hterminal : terminalKeys.Sublist order) :
    Selection order maxItems (selectKeys order terminalKeys maxItems) ∧
      ∀ oldestKey, order.head? = some oldestKey → oldestKey ∈ selectKeys order terminalKeys maxItems := by
  have hstart : Selection order maxItems (terminalKeys.take maxItems) := by
    have hsub : (terminalKeys.take maxItems).Sublist order := (List.take_sublist _ _).trans hterminal
    exact ⟨hnodup.sublist hsub, hsub.subset, List.length_take_le _ _⟩
  unfold selectKeys
  cases hhead : order.head? with
  | none => exact ⟨hstart.fill (List.Subset.refl _), fun _ h => nomatch h⟩
  | some oldestKey =>
    have hmem : oldestKey ∈ order := List.mem_of_head? hhead
    obtain ⟨hcarried, holdest⟩ := hstart.carryOldest hmax hmem
    refine ⟨hcarried.fill (List.Subset.refl _), ?_⟩
    rintro _ ⟨rfl⟩
    exact fillSelection_extends _ _ _ holdest

/-! ### The cursor of a payload -/

/-- The cursor is that of the last leading event whose shape was selected. -/
theorem carriedThrough_eq (selected : List String) (cursor : Nat) (events : List LifecycleEvent) :
    carriedThrough selected cursor events =
      (((events.takeWhile fun event => selected.contains (digestShapeKey event)).getLast?).map
        (·.seq)).getD cursor := by
  induction events generalizing cursor with
  | nil => rfl
  | cons event rest ih =>
    unfold carriedThrough
    by_cases hin : selected.contains (digestShapeKey event) = true
    · rw [hin, if_neg (by simp), ih, List.takeWhile_cons, hin, if_pos rfl, List.getLast?_cons]
      cases (rest.takeWhile fun event => selected.contains (digestShapeKey event)).getLast? <;> rfl
    · rw [Bool.not_eq_true] at hin
      rw [hin, if_pos (by simp), List.takeWhile_cons, hin]
      rfl

/-- In a list that increases, what is not beyond an element of the leading part is in it. -/
theorem mem_takeWhile_of_le {p : LifecycleEvent → Bool} {events : List LifecycleEvent}
    (hincreasing : events.Pairwise fun a b => a.seq < b.seq) {last event : LifecycleEvent}
    (hlast : last ∈ events.takeWhile p) (hevent : event ∈ events) (hle : event.seq ≤ last.seq) :
    event ∈ events.takeWhile p := by
  have hsplit := List.takeWhile_append_dropWhile (p := p) (l := events)
  rw [← hsplit] at hevent hincreasing
  rcases List.mem_append.mp hevent with hfront | hback
  · exact hfront
  · have hlt := (List.pairwise_append.mp hincreasing).2.2 last hlast event hback
    omega

/-! ### The relay -/

/-- A journal's numbers increase and do not pass the last one given. -/
structure Ordered (file : LifecycleJournalFile) : Prop where
  increasing : file.events.Pairwise fun a b => a.seq < b.seq
  bounded : ∀ event ∈ file.events, event.seq ≤ file.lastSeq

/-- The retained events that match the request's filters and lie after the cursor. -/
def pendingEvents (file : LifecycleJournalFile) (request : LifecycleDigestRequest) (cursorSeq : Nat) :
    List LifecycleEvent :=
  file.events.filter fun event => matchesQuery event (request.query cursorSeq) cursorSeq

/-- The item is one that events of the list, among them this one, were folded into. -/
def LifecycleDigestItem.Folds (item : LifecycleDigestItem) (events : List LifecycleEvent)
    (event : LifecycleEvent) : Prop :=
  ∃ folded : Group String LifecycleEvent,
    item = itemFromEvents folded ∧ event ∈ folded.rows ∧ folded.rows.Sublist events

/-- What a relay promises for the cursor that it was evaluated at. -/
structure Relays (file : LifecycleJournalFile) (request : LifecycleDigestRequest) (cursorSeq : Nat)
    (relay : DigestRelay) : Prop where
  progress : cursorSeq < relay.through
  reached : ∃ last ∈ pendingEvents file request cursorSeq, last.seq = relay.through
  within : relay.through ≤ file.lastSeq
  some_item : 1 ≤ relay.items.length
  bounded : relay.items.length ≤ request.bound
  carried : ∀ event ∈ pendingEvents file request cursorSeq, event.seq ≤ relay.through →
    ∃ item ∈ relay.items, item.Folds (pendingEvents file request cursorSeq) event

theorem bound_pos (request : LifecycleDigestRequest) : 0 < request.bound := by
  unfold LifecycleDigestRequest.bound
  omega

theorem seq_of_pending {file : LifecycleJournalFile} {request : LifecycleDigestRequest} {cursorSeq : Nat}
    {event : LifecycleEvent} (h : event ∈ pendingEvents file request cursorSeq) : cursorSeq < event.seq := by
  have hmatch := (List.mem_filter.mp h).2
  simp only [matchesQuery, Bool.and_eq_true, Bool.not_eq_true', decide_eq_false_iff_not] at hmatch
  omega

/-- The selection of a payload. -/
theorem payload_selected {events : List LifecycleEvent} {maxItems : Nat} (cursorSeq : Nat)
    (hmax : 0 < maxItems) {first : LifecycleEvent} (hfirst : events.head? = some first) :
    ∃ selected, Selection ((groups digestShapeKey events).map Group.key) maxItems selected ∧
      digestShapeKey first ∈ selected ∧
      (selectDigestPayload events maxItems cursorSeq).through = carriedThrough selected cursorSeq events ∧
      (selectDigestPayload events maxItems cursorSeq).items =
        ((groups digestShapeKey events).filter fun g => selected.contains g.key).map itemFromEvents := by
  have hgrouped := @grouped _ _ _ digestShapeKey events
  have hterminal := (List.filter_sublist
    (p := fun g : Group String LifecycleEvent =>
      g.rows.any fun event => isTerminalHighSignalEvent event.type)
    (l := groups digestShapeKey events)).map Group.key
  obtain ⟨hselection, holdest⟩ := selected hmax hgrouped.nodup hterminal
  refine ⟨_, hselection, ?_, rfl, rfl⟩
  apply holdest
  cases events with
  | nil => exact nomatch hfirst
  | cons event rest =>
    rw [List.head?_cons, Option.some.injEq] at hfirst
    rw [← hfirst]
    exact RowGroups.head_groups event rest

/-- An event of a selected shape is folded into the item of the shape. -/
theorem folded_of_selected {events : List LifecycleEvent} {selected : List String} {event : LifecycleEvent}
    (hevent : event ∈ events) (hselected : digestShapeKey event ∈ selected) :
    ∃ item ∈ ((groups digestShapeKey events).filter fun g => selected.contains g.key).map itemFromEvents,
      item.Folds events event := by
  have hgrouped := @grouped _ _ _ digestShapeKey events
  obtain ⟨folded, hfolded, hkey⟩ := List.mem_map.mp (hgrouped.covered event hevent)
  have hrows := hgrouped.holds folded hfolded
  refine ⟨itemFromEvents folded, ?_, folded, rfl, ?_, ?_⟩
  · apply List.mem_map_of_mem
    rw [List.mem_filter]
    refine ⟨hfolded, ?_⟩
    rw [hkey]
    simpa using hselected
  · rw [hrows, RowGroups.mem_group]
    exact ⟨hevent, hkey.symm⟩
  · rw [hrows]
    exact List.filter_sublist

theorem items_bounded {events : List LifecycleEvent} {maxItems : Nat} {selected : List String}
    (h : Selection ((groups digestShapeKey events).map Group.key) maxItems selected) :
    (((groups digestShapeKey events).filter fun g => selected.contains g.key).map itemFromEvents).length
      ≤ maxItems := by
  have hgrouped := @grouped _ _ _ digestShapeKey events
  have hnodup := hgrouped.nodup.sublist
    ((List.filter_sublist (p := fun g => selected.contains g.key)).map Group.key)
  have hsub : (((groups digestShapeKey events).filter fun g => selected.contains g.key).map Group.key)
      ⊆ selected := by
    intro key hkey
    obtain ⟨g, hg, rfl⟩ := List.mem_map.mp hkey
    simpa using (List.mem_filter.mp hg).2
  have hle := (List.subperm_of_subset hnodup hsub).length_le
  rw [List.length_map] at hle ⊢
  exact hle.trans h.bounded

/-- **The payload.**  `events` is the page of pending events. -/
theorem payload_relays {events : List LifecycleEvent} {maxItems : Nat} (cursorSeq : Nat)
    (hmax : 0 < maxItems) (hincreasing : events.Pairwise fun a b => a.seq < b.seq)
    {first : LifecycleEvent} (hfirst : events.head? = some first) :
    ∃ last ∈ events, (selectDigestPayload events maxItems cursorSeq).through = last.seq ∧
      1 ≤ (selectDigestPayload events maxItems cursorSeq).items.length ∧
      (selectDigestPayload events maxItems cursorSeq).items.length ≤ maxItems ∧
      ∀ event ∈ events, event.seq ≤ last.seq →
        ∃ item ∈ (selectDigestPayload events maxItems cursorSeq).items, item.Folds events event := by
  obtain ⟨selected, hselection, holdest, hthrough, hitems⟩ := payload_selected cursorSeq hmax hfirst
  have hfirstmem : first ∈ events := List.mem_of_head? hfirst
  set carried := events.takeWhile fun event => selected.contains (digestShapeKey event) with hcarried
  have hnonempty : carried ≠ [] := by
    obtain ⟨event, rest, rfl⟩ := List.exists_cons_of_ne_nil (List.ne_nil_of_mem hfirstmem)
    rw [List.head?_cons, Option.some.injEq] at hfirst
    rw [hcarried, List.takeWhile_cons, hfirst, if_pos (by simpa using holdest)]
    exact List.cons_ne_nil _ _
  have hlast := List.getLast?_eq_getLast_of_ne_nil hnonempty
  have hmem : carried.getLast hnonempty ∈ carried := List.getLast_mem hnonempty
  refine ⟨carried.getLast hnonempty, (List.takeWhile_sublist _).subset hmem, ?_, ?_, ?_, ?_⟩
  · rw [hthrough, carriedThrough_eq, ← hcarried, hlast]
    rfl
  · obtain ⟨item, hitem, -⟩ := folded_of_selected hfirstmem holdest
    rw [hitems]
    exact List.length_pos_of_mem hitem
  · rw [hitems]
    exact items_bounded hselection
  · intro event hevent hle
    have hfront := mem_takeWhile_of_le hincreasing hmem hevent hle
    have hselected := List.mem_takeWhile_imp hfront
    rw [hitems]
    exact folded_of_selected hevent (by simpa using hselected)

variable {dates : Dates}

theorem page_events (file : LifecycleJournalFile) (request : LifecycleDigestRequest) (cursorSeq : Nat) :
    (pageFromEvents file { request.query cursorSeq with limit := some 200 }).events
      = (pendingEvents file request cursorSeq).take 200 := rfl

/-- A routine batch that is still held. -/
def Held (dates : Dates) (file : LifecycleJournalFile) (request : LifecycleDigestRequest)
    (subscriber : DigestSubscriberState) (clock : Int) : Prop :=
  ∃ oldest releaseAt, (pendingEvents file request subscriber.cursorSeq).head? = some oldest ∧
    heldUntil dates file request subscriber (request.nowAt clock) oldest = some releaseAt

/-- What an evaluation relays: nothing while nothing is pending or the batch is held, and else the
payload of the page. -/
theorem evaluateDigest_cases (dates : Dates) (file : LifecycleJournalFile)
    (request : LifecycleDigestRequest) (subscriber : DigestSubscriberState) (clock : Int) :
    ((evaluateDigest dates file request subscriber clock).relay = none ∧
      (pendingEvents file request subscriber.cursorSeq = [] ∨ Held dates file request subscriber clock)) ∨
    ∃ oldest relay, ((pendingEvents file request subscriber.cursorSeq).take 200).head? = some oldest ∧
      (evaluateDigest dates file request subscriber clock).relay = some relay ∧
      (evaluateDigest dates file request subscriber clock).cursor = relay.through ∧
      relay.through = (selectDigestPayload ((pendingEvents file request subscriber.cursorSeq).take 200)
        request.bound subscriber.cursorSeq).through ∧
      relay.items = (selectDigestPayload ((pendingEvents file request subscriber.cursorSeq).take 200)
        request.bound subscriber.cursorSeq).items := by
  have hhead : ((pendingEvents file request subscriber.cursorSeq).take 200).head?
      = (pendingEvents file request subscriber.cursorSeq).head? := by
    rw [List.head?_take, if_neg (by decide)]
  unfold evaluateDigest
  dsimp only
  rw [page_events, hhead]
  cases holdest : (pendingEvents file request subscriber.cursorSeq).head? with
  | none => exact Or.inl ⟨rfl, Or.inl (List.head?_eq_none_iff.mp holdest)⟩
  | some oldest =>
    dsimp only
    cases hheld : heldUntil dates file request subscriber (request.nowAt clock) oldest with
    | some releaseAt => exact Or.inl ⟨rfl, Or.inr ⟨oldest, releaseAt, holdest, hheld⟩⟩
    | none => exact Or.inr ⟨oldest, _, rfl, rfl, rfl, rfl, rfl⟩

/-- **A poll's evaluation.** -/
theorem relays {file : LifecycleJournalFile} (hordered : Ordered file) {request : LifecycleDigestRequest}
    {subscriber : DigestSubscriberState} {clock : Int} {relay : DigestRelay}
    (h : (evaluateDigest dates file request subscriber clock).relay = some relay) :
    (evaluateDigest dates file request subscriber clock).cursor = relay.through ∧
      Relays file request subscriber.cursorSeq relay := by
  rcases evaluateDigest_cases dates file request subscriber clock with
    ⟨hnone, -⟩ | ⟨oldest, relay', holdest, hrelay, hcursor, hthrough, hitems⟩
  · rw [hnone] at h
    exact nomatch h
  · obtain rfl : relay' = relay := by
      rw [hrelay, Option.some.injEq] at h
      exact h
    have hpending : (pendingEvents file request subscriber.cursorSeq).Pairwise
        fun a b => a.seq < b.seq := hordered.increasing.sublist List.filter_sublist
    have hpage : ((pendingEvents file request subscriber.cursorSeq).take 200).Sublist
        (pendingEvents file request subscriber.cursorSeq) := List.take_sublist _ _
    obtain ⟨last, hlast, hseq, hsome, hbound, hcarried⟩ :=
      payload_relays subscriber.cursorSeq (bound_pos request) (hpending.sublist hpage) holdest
    rw [← hthrough] at hseq
    rw [← hitems] at hsome hbound hcarried
    have hmem := hpage.subset hlast
    refine ⟨hcursor, ?_⟩
    exact {
      progress := hseq ▸ seq_of_pending hmem
      reached := ⟨last, hmem, hseq.symm⟩
      within := by
        rw [hseq]
        exact hordered.bounded last (List.mem_filter.mp hmem).1
      some_item := hsome
      bounded := hbound
      carried := by
        -- What lies beyond the page lies beyond its last event.
        intro event hevent hle
        rw [hseq] at hle
        have hfront : event ∈ (pendingEvents file request subscriber.cursorSeq).take 200 := by
          rw [← List.take_append_drop 200 (pendingEvents file request subscriber.cursorSeq)]
            at hevent hpending
          rcases List.mem_append.mp hevent with hin | hbeyond
          · exact hin
          · have := (List.pairwise_append.mp hpending).2.2 last hlast event hbeyond
            omega
        obtain ⟨item, hitem, folded, heq, hrows, hsub⟩ := hcarried event hfront hle
        exact ⟨item, hitem, folded, heq, hrows, hsub.trans hpage⟩ }

end Delegatus.Lifecycle
