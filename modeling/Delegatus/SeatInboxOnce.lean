import Delegatus.SeatInboxRecords

/-!
# Accepted once

What the records say over whole runs: a message is inserted for delivery once, an acknowledgement is
always the recorded one, a message that is sent again is acknowledged again, and what a drain has
pruned is never inserted for delivery again when it is sent again unchanged.
-/

namespace Delegatus.SeatInbox

open SeatMessages (Ack Direction RowState SeatMessageRefusal DAY)

section Calls

variable (context : Context)

/-! ### Acknowledgements -/

theorem mem_pendingAcks {link : LinkedPeer} {rows : Rows} {row : Row} :
    row ∈ pendingAcks link rows ↔
      row ∈ rows.rows ∧ row.dir = .in ∧ row.link = link.install ∧ row.connection = link.connection ∧
        row.ackPending = true ∧ row.settled = true := by
  unfold pendingAcks
  rw [List.mem_filter, decide_eq_true_eq]

/-- The pending rows in the order of the parts. -/
def ackOrder (link : LinkedPeer) (rows : Rows) : List Row :=
  (pendingAcks link rows).mergeSort fun a b => b.receivedAt.getD 0 ≤ a.receivedAt.getD 0

theorem mem_ackOrder {link : LinkedPeer} {rows : Rows} {row : Row} :
    row ∈ ackOrder link rows ↔ row ∈ pendingAcks link rows :=
  (List.mergeSort_perm _ _).mem_iff

/-- **A part acknowledges what is recorded.** -/
theorem ack_recorded {rows : Rows} (h : Sound rows) {link : LinkedPeer} {now : Int} {ack : Ack}
    (hack : ack ∈ (seatMessagesPart context link now rows).2.ack) :
    ∃ row, rows.get? (inKey link.install ack.id) = some row ∧ row.settled = true ∧ ack = ackOf row := by
  obtain ⟨row, hrow, rfl⟩ := List.mem_map.mp hack
  have hpending := mem_pendingAcks.mp (mem_ackOrder.mp (List.mem_of_mem_take hrow))
  refine ⟨row, Table.get?_eq_some.mpr ⟨hpending.1, ?_⟩, hpending.2.2.2.2.2, rfl⟩
  rw [(h row hpending.1).inKeyed hpending.2.1, hpending.2.2.1]
  rfl

/-! ### A message that is sent again -/

theorem acceptMessages_pending {link : LinkedPeer} {now : Int} {messages : List Message}
    {message : Message} (hmessage : message ∈ messages) {state : Rows × Nat} (h : Sound state.1)
    {row : Row} (hrow : state.1.get? (inKey link.install message.id) = some row)
    (hsettled : row.settled = true) :
    ∃ row', (messages.foldl (acceptMessage context link now) state).1.get?
        (inKey link.install message.id) = some row' ∧ Later row row' ∧ row'.ackPending = true := by
  induction messages generalizing state row with
  | nil => exact nomatch hmessage
  | cons first rest ih =>
    rw [List.foldl_cons]
    have hkeeps := acceptMessage_keeps context link now state first h
    rcases List.mem_cons.mp hmessage with rfl | hrest
    · -- the message itself: its row waits again, and the other messages of the part keep that
      have hpending : ∃ middle, (acceptMessage context link now state message).1.get?
          (inKey link.install message.id) = some middle ∧ Later row middle ∧
            middle.ackPending = true := by
        unfold acceptMessage
        rw [hrow]
        dsimp only
        by_cases hwaits : row.ackPending = true
        · rw [hwaits]
          exact ⟨row, hrow, Later.refl row, hwaits⟩
        · rw [Bool.eq_false_iff.mpr hwaits, hsettled]
          refine ⟨{ row with ackPending := true }, ?_, ?_, rfl⟩
          · rw [if_pos (by rfl), Table.get?_set, if_pos (h.get? hrow).2.symm]
          · exact ⟨rfl, rfl, rfl, rfl, rfl, rfl, rfl, fun _ => ⟨rfl, rfl⟩⟩
      obtain ⟨middle, hmiddle, hlater, hwaits⟩ := hpending
      obtain ⟨row', hrow', hkept⟩ := (keeps_counted (acceptMessage_keeps context link now) rest
        (acceptMessage context link now state message) hkeeps.1).2 _ middle hmiddle
          (hlater.dir.trans (h.dir_in hrow))
      exact ⟨row', hrow', hlater.trans hkept.1, hkept.2 hwaits⟩
    · obtain ⟨middle, hmiddle, hkept⟩ := hkeeps.2 _ row hrow (h.dir_in hrow)
      obtain ⟨row', hrow', hlater, hwaits⟩ :=
        ih hrest hkeeps.1 hmiddle (hkept.1.settled hsettled)
      exact ⟨row', hrow', hkept.1.trans hlater, hwaits⟩

/-- **A settled message that is sent again** waits for its acknowledgement again. -/
theorem accept_again {rows : Rows} (h : Sound rows) {link : LinkedPeer} {now : Int}
    {part : SeatMessagePart} {moved : Nat}
    (hok : (acceptSeatMessages context link now part rows).2 = .ok moved) {message : Message}
    (hmessage : message ∈ part.out) {row : Row}
    (hrow : rows.get? (inKey link.install message.id) = some row) (hsettled : row.settled = true) :
    ∃ row', (acceptSeatMessages context link now part rows).1.get? (inKey link.install message.id) =
        some row' ∧ Later row row' ∧ row'.ackPending = true := by
  revert hok
  unfold acceptSeatMessages
  have hout : ¬(part.out = [] ∧ part.ack = []) := by
    rintro ⟨hnone, -⟩
    rw [hnone] at hmessage
    cases hmessage
  rw [if_neg hout]
  split
  · intro hok
    cases hok
  · intro _
    dsimp only
    obtain ⟨middle, hmiddle, hlater, hwaits⟩ :=
      @acceptMessages_pending context link now part.out message hmessage (rows, 0) h row hrow hsettled
    have hsound := (keeps_counted (acceptMessage_keeps context link now) part.out (rows, 0) h).1
    obtain ⟨row', hrow', hkept⟩ := (keeps_counted (acceptAck_keeps link) part.ack _ hsound).2 _ middle
      hmiddle (hlater.dir.trans (h.dir_in hrow))
    exact ⟨row', hrow', hlater.trans hkept.1, hkept.2 hwaits⟩

/-! ### The parts that acknowledge it -/

theorem get?_clearPending (rows : Rows) (k key : String) :
    (clearPending rows k).get? key =
      if key = k then (rows.get? key).map fun row => { row with ackPending := false }
      else rows.get? key := by
  unfold clearPending
  cases hheld : rows.get? k with
  | none =>
    by_cases hkey : key = k
    · rw [if_pos hkey, hkey, hheld]
      rfl
    · rw [if_neg hkey]
  | some row =>
    have hrowKey : row.key = k := (Table.get?_eq_some.mp hheld).2
    dsimp only
    by_cases hpending : row.ackPending = true
    · rw [if_pos hpending, Table.get?_set]
      by_cases hkey : key = k
      · rw [if_pos (hkey.trans hrowKey.symm), if_pos hkey, hkey, hheld]
        rfl
      · rw [if_neg (fun hsame => hkey (hsame.trans hrowKey)), if_neg hkey]
    · rw [if_neg hpending]
      by_cases hkey : key = k
      · rw [if_pos hkey, hkey, hheld, Option.map_some]
        cases row
        simp only [Bool.not_eq_true] at hpending
        rw [hpending]
      · rw [if_neg hkey]

theorem get?_clearAll (keys : List String) (rows : Rows) (key : String) :
    (keys.foldl clearPending rows).get? key =
      if key ∈ keys then (rows.get? key).map fun row => { row with ackPending := false }
      else rows.get? key := by
  induction keys generalizing rows with
  | nil => rfl
  | cons first rest ih =>
    rw [List.foldl_cons, ih, get?_clearPending]
    by_cases hfirst : key = first
    · rw [if_pos hfirst, if_pos (List.mem_cons.mpr (Or.inl hfirst))]
      cases rows.get? key <;> simp
    · rw [if_neg hfirst]
      by_cases hrest : key ∈ rest
      · rw [if_pos hrest, if_pos (List.mem_cons_of_mem _ hrest)]
      · rw [if_neg hrest, if_neg]
        rintro hmem
        rcases List.mem_cons.mp hmem with hsame | hmem
        · exact hfirst hsame
        · exact hrest hmem

/-- The rows differ in their times of sending alone. -/
def SentApart (rows rows' : Rows) : Prop :=
  ∀ key, Option.Rel (fun row row' : Row => ∃ sentAt, row' = { row with sentAt := sentAt })
    (rows.get? key) (rows'.get? key)

theorem sentApart_refl (rows : Rows) : SentApart rows rows := by
  intro key
  cases rows.get? key with
  | none => exact .none
  | some row => exact .some ⟨row.sentAt, rfl⟩

theorem sentApart_trans {rows middle last : Rows} (h : SentApart rows middle)
    (h' : SentApart middle last) : SentApart rows last := by
  intro key
  have hfirst := h key
  have hsecond := h' key
  revert hfirst hsecond
  cases rows.get? key <;> cases middle.get? key <;> cases last.get? key <;> intro hfirst hsecond
  · exact .none
  · exact nomatch hsecond
  · exact nomatch hfirst
  · exact nomatch hfirst
  · exact nomatch hfirst
  · exact nomatch hfirst
  · exact nomatch hsecond
  · cases hfirst with
    | some hfirst =>
      cases hsecond with
      | some hsecond =>
        obtain ⟨_, rfl⟩ := hfirst
        obtain ⟨sentAt, rfl⟩ := hsecond
        exact .some ⟨sentAt, rfl⟩

theorem sentApart_markSent (now : Int) (rows : Rows) (sent : Row) :
    SentApart rows (markSent now rows sent) := by
  unfold markSent
  split
  · exact sentApart_refl rows
  cases hheld : rows.get? sent.key with
  | none => exact sentApart_refl rows
  | some held =>
    dsimp only
    split
    · exact sentApart_refl rows
    · intro key
      have hkeyHeld : held.key = sent.key := (Table.get?_eq_some.mp hheld).2
      rw [Table.get?_set]
      by_cases hkey : key = held.key
      · rw [if_pos hkey, hkey, hkeyHeld, hheld]
        exact .some ⟨some now, rfl⟩
      · rw [if_neg hkey]
        exact sentApart_refl rows key

theorem sentApart_foldl (now : Int) (sent : List Row) (rows : Rows) :
    SentApart rows (sent.foldl (markSent now) rows) := by
  induction sent generalizing rows with
  | nil => exact sentApart_refl rows
  | cons first rest ih => exact sentApart_trans (sentApart_markSent now rows first) (ih _)

/-- The keys of the rows that the next part acknowledges. -/
def ackKeys (link : LinkedPeer) (rows : Rows) : List String :=
  ((nextAcks link rows).map ackOf).map fun item => inKey link.install item.id

theorem mem_ackKeys {rows : Rows} (h : Sound rows) {link : LinkedPeer} {row : Row}
    (hrow : row ∈ rows.rows) : row.key ∈ ackKeys link rows ↔ row ∈ nextAcks link rows := by
  have hkeyOf : ∀ other ∈ nextAcks link rows, other ∈ rows.rows ∧
      inKey link.install (ackOf other).id = other.key := by
    intro other hother
    have hpending := mem_pendingAcks.mp (mem_ackOrder.mp (List.mem_of_mem_take hother))
    refine ⟨hpending.1, ?_⟩
    rw [(h other hpending.1).inKeyed hpending.2.1, hpending.2.2.1]
    rfl
  unfold ackKeys
  rw [List.map_map]
  constructor
  · intro hmem
    obtain ⟨other, hother, hkey⟩ := List.mem_map.mp hmem
    obtain ⟨hotherMem, hotherKey⟩ := hkeyOf other hother
    have hsame : other = row := rows.eq_of_key_eq hotherMem hrow (hotherKey.symm.trans hkey)
    exact hsame ▸ hother
  · intro hmem
    exact List.mem_map.mpr ⟨row, hmem, (hkeyOf row hmem).2⟩

/-- What a part leaves of a row. -/
theorem get?_part {rows : Rows} (link : LinkedPeer) (now : Int) (key : String) :
    Option.Rel (fun row row' : Row => ∃ sentAt, row' =
        { row with
          ackPending := row.ackPending && !decide (key ∈ ackKeys link rows), sentAt := sentAt })
      (rows.get? key) ((seatMessagesPart context link now rows).1.get? key) := by
  have hsent := sentApart_foldl now (waitingMessages context link now rows)
    ((ackKeys link rows).foldl clearPending rows) key
  show Option.Rel _ _ (((waitingMessages context link now rows).foldl (markSent now)
    ((ackKeys link rows).foldl clearPending rows)).get? key)
  rw [get?_clearAll] at hsent
  revert hsent
  generalize Table.get? (List.foldl (markSent now) _ _) key = last
  by_cases hmem : key ∈ ackKeys link rows
  · rw [if_pos hmem]
    cases rows.get? key with
    | none =>
      intro hsent
      cases hsent
      exact .none
    | some row =>
      intro hsent
      cases hsent with
      | some hrow =>
        obtain ⟨sentAt, rfl⟩ := hrow
        refine .some ⟨sentAt, ?_⟩
        rw [decide_eq_true hmem, Bool.not_true, Bool.and_false]
  · rw [if_neg hmem]
    cases rows.get? key with
    | none =>
      intro hsent
      cases hsent
      exact .none
    | some row =>
      intro hsent
      cases hsent with
      | some hrow =>
        obtain ⟨sentAt, rfl⟩ := hrow
        refine .some ⟨sentAt, ?_⟩
        rw [decide_eq_false hmem, Bool.not_false, Bool.and_true]

/-- The rows that still wait after a part are those that it had no room for. -/
theorem pendingAcks_part {rows : Rows} (h : Sound rows) (link : LinkedPeer) (now : Int) {row' : Row}
    (hrow' : row' ∈ pendingAcks link (seatMessagesPart context link now rows).1) :
    ∃ row ∈ (ackOrder link rows).drop 10, row.key = row'.key := by
  obtain ⟨hmem, hin, hlink, hconnection, hpending, hsettled⟩ := mem_pendingAcks.mp hrow'
  have hpart := @get?_part context rows link now row'.key
  rw [Table.get?_eq_some.mpr ⟨hmem, rfl⟩] at hpart
  cases hget : rows.get? row'.key with
  | none =>
    rw [hget] at hpart
    exact nomatch hpart
  | some row =>
    rw [hget] at hpart
    obtain ⟨hrowMem, hkey⟩ := Table.get?_eq_some.mp hget
    cases hpart with
    | some hsame =>
      obtain ⟨sentAt, hsame⟩ := hsame
      rw [hsame] at hin hlink hconnection hpending hsettled
      obtain ⟨hwaits, hkept⟩ := Bool.and_eq_true_iff.mp hpending
      have hnotAcked : row ∉ nextAcks link rows := by
        intro hacked
        rw [← hkey, decide_eq_true ((mem_ackKeys h hrowMem).mpr hacked)] at hkept
        exact nomatch hkept
      have hordered : row ∈ ackOrder link rows :=
        mem_ackOrder.mpr (mem_pendingAcks.mpr ⟨hrowMem, hin, hlink, hconnection, hwaits, hsettled⟩)
      rw [← List.take_append_drop 10 (ackOrder link rows)] at hordered
      rcases List.mem_append.mp hordered with hacked | hlater
      · exact absurd hacked hnotAcked
      · exact ⟨row, hlater, hkey⟩

theorem length_pendingAcks_part {rows : Rows} (h : Sound rows) (link : LinkedPeer) (now : Int) :
    (pendingAcks link (seatMessagesPart context link now rows).1).length ≤
      (pendingAcks link rows).length - 10 := by
  have hnodup : ((pendingAcks link (seatMessagesPart context link now rows).1).map
      fun row : Row => row.key).Nodup :=
    (seatMessagesPart context link now rows).1.nodup.sublist (List.filter_sublist.map _)
  have hsubset : ((pendingAcks link (seatMessagesPart context link now rows).1).map
      fun row : Row => row.key) ⊆ ((ackOrder link rows).drop 10).map fun row : Row => row.key := by
    intro key hkey
    obtain ⟨row', hrow', rfl⟩ := List.mem_map.mp hkey
    obtain ⟨row, hrow, hsame⟩ := pendingAcks_part context h link now hrow'
    exact hsame ▸ List.mem_map_of_mem hrow
  have hlength := List.Nodup.length_le_of_subset hnodup hsubset
  rw [List.length_map, List.length_map, List.length_drop, ackOrder, List.length_mergeSort] at hlength
  exact hlength

/-- A row that the part has no room for waits on. -/
theorem pending_part {rows : Rows} (h : Sound rows) {link : LinkedPeer} (now : Int) {row : Row}
    (hrow : row ∈ pendingAcks link rows) (hlater : row ∉ nextAcks link rows) :
    ∃ row' ∈ pendingAcks link (seatMessagesPart context link now rows).1, ackOf row' = ackOf row := by
  obtain ⟨hmem, hin, hlink, hconnection, hpending, hsettled⟩ := mem_pendingAcks.mp hrow
  have hpart := @get?_part context rows link now row.key
  rw [Table.get?_eq_some.mpr ⟨hmem, rfl⟩] at hpart
  have hkept : row.key ∉ ackKeys link rows := fun hacked => hlater ((mem_ackKeys h hmem).mp hacked)
  cases hget : (seatMessagesPart context link now rows).1.get? row.key with
  | none =>
    rw [hget] at hpart
    exact nomatch hpart
  | some row' =>
    rw [hget] at hpart
    cases hpart with
    | some hsame =>
      obtain ⟨sentAt, rfl⟩ := hsame
      refine ⟨_, mem_pendingAcks.mpr ⟨(Table.get?_eq_some.mp hget).1, hin, hlink, hconnection, ?_,
        hsettled⟩, rfl⟩
      rw [hpending, decide_eq_false hkept]
      rfl

/-- **The next parts of the link acknowledge every pending row**, ten a part. -/
theorem acknowledged_by_parts {rows : Rows} (h : Sound rows) {link : LinkedPeer} {row : Row}
    (hrow : row ∈ pendingAcks link rows) (nows : List Int)
    (hroom : (pendingAcks link rows).length ≤ 10 * nows.length) :
    ∃ front now back, nows = front ++ now :: back ∧
      ackOf row ∈ (seatMessagesPart context link now
        (Runs.after (step context) rows (front.map (Call.part link)))).2.ack := by
  induction nows generalizing rows row with
  | nil =>
    rw [List.length_nil, Nat.mul_zero, Nat.le_zero, List.length_eq_zero_iff] at hroom
    rw [hroom] at hrow
    exact nomatch hrow
  | cons now rest ih =>
    by_cases hnext : row ∈ nextAcks link rows
    · exact ⟨[], now, rest, rfl, List.mem_map_of_mem hnext⟩
    · obtain ⟨row', hrow', hsame⟩ := pending_part context h now hrow hnext
      have hlength := length_pendingAcks_part context h link now
      rw [List.length_cons] at hroom
      obtain ⟨front, other, back, hsplit, hacked⟩ :=
        ih (seatMessagesPart_keeps context link now rows h).1 hrow' (by omega)
      refine ⟨now :: front, other, back, by rw [hsplit]; rfl, ?_⟩
      rw [hsame] at hacked
      exact hacked

/-! ### Insertions -/

/-- The call inserts the message of the key for delivery. -/
def Inserts (rows : Rows) (call : Call) (key : String) : Prop :=
  rows.get? key = none ∧
    ∃ row, (step context rows call).1.get? key = some row ∧ row.st = some .received

theorem acceptMessages_inserted {link : LinkedPeer} {now : Int} {messages : List Message}
    {state : Rows × Nat} (h : Sound state.1) {key : String} (habsent : state.1.get? key = none)
    {row : Row} (hrow : (messages.foldl (acceptMessage context link now) state).1.get? key = some row) :
    ∃ message ∈ messages, inKey link.install message.id = key ∧
      Later (insertedRow context link now message) row := by
  induction messages generalizing state with
  | nil => exact nomatch habsent.symm.trans hrow
  | cons first rest ih =>
    rw [List.foldl_cons] at hrow
    have hsound := (acceptMessage_keeps context link now state first h).1
    cases hmiddle : (acceptMessage context link now state first).1.get? key with
    | none =>
      obtain ⟨message, hmessage, hinserted⟩ := ih hsound hmiddle hrow
      exact ⟨message, List.mem_cons_of_mem _ hmessage, hinserted⟩
    | some middle =>
      have hfirst : key = inKey link.install first.id ∧
          middle = insertedRow context link now first := by
        unfold acceptMessage at hmiddle
        cases hheld : state.1.get? (inKey link.install first.id) with
        | none =>
          rw [hheld] at hmiddle
          dsimp only at hmiddle
          rw [Table.get?_set] at hmiddle
          by_cases hkey : key = (insertedRow context link now first).key
          · rw [if_pos hkey] at hmiddle
            exact ⟨hkey, (Option.some.inj hmiddle).symm⟩
          · rw [if_neg hkey] at hmiddle
            exact nomatch habsent.symm.trans hmiddle
        | some prior =>
          have hpriorKey := (h.get? hheld).2
          have hother : key ≠ prior.key := by
            intro hsame
            rw [hsame, hpriorKey, hheld] at habsent
            exact nomatch habsent
          rw [hheld] at hmiddle
          dsimp only at hmiddle
          split at hmiddle
          · rw [Table.get?_set, if_neg hother] at hmiddle
            exact nomatch habsent.symm.trans hmiddle
          · exact nomatch habsent.symm.trans hmiddle
      refine ⟨first, List.mem_cons_self, hfirst.1.symm, ?_⟩
      have hin : middle.dir = .in := hfirst.2 ▸ rfl
      obtain ⟨row', hrow', hkept⟩ := (keeps_counted (acceptMessage_keeps context link now) rest
        (acceptMessage context link now state first) hsound).2 key middle hmiddle hin
      obtain rfl : row' = row := Option.some.inj (hrow'.symm.trans hrow)
      exact hfirst.2 ▸ hkept.1

theorem acceptAcks_absent {link : LinkedPeer} (acks : List Ack) {state : Rows × Nat} {key : String}
    (habsent : state.1.get? key = none) :
    (acks.foldl (acceptAck link) state).1.get? key = none := by
  induction acks generalizing state with
  | nil => exact habsent
  | cons first rest ih =>
    rw [List.foldl_cons]
    apply ih
    unfold acceptAck
    dsimp only
    split
    · rename_i original hfind
      split
      · exact habsent
      · have hget : state.1.get? original.key = some original :=
          Table.get?_eq_some.mpr ⟨List.mem_of_find?_eq_some hfind, rfl⟩
        rw [Table.get?_set, if_neg]
        · exact habsent
        · intro hkey
          rw [hkey] at habsent
          cases habsent.symm.trans hget
    · exact habsent

/-- **An insertion for delivery** comes from a message of the part that passed the checks. -/
theorem inserts_accept {rows : Rows} (h : Sound rows) {link : LinkedPeer} {now : Int}
    {part : SeatMessagePart} {key : String}
    (hinserts : Inserts context rows (.accept link now part) key) :
    ∃ message ∈ part.out, ∃ fields row, inKey link.install message.id = key ∧
      validMessage message link.projects = some fields ∧ fields.at ≤ now + 3600000 ∧
      now - fields.at ≤ 30 * DAY ∧
      (step context rows (.accept link now part)).1.get? key = some row ∧
      row.at = fields.at ∧ row.receivedAt = some now ∧ row.dir = .in := by
  obtain ⟨habsent, row, hrow, hst⟩ := hinserts
  have hreceived : ∃ message ∈ part.out, inKey link.install message.id = key ∧
      Later (insertedRow context link now message) row := by
    have hrow' : (acceptSeatMessages context link now part rows).1.get? key = some row := hrow
    unfold acceptSeatMessages at hrow'
    split at hrow'
    · cases habsent.symm.trans hrow'
    split at hrow'
    · cases habsent.symm.trans hrow'
    · dsimp only at hrow'
      have hsound := (keeps_counted (acceptMessage_keeps context link now) part.out (rows, 0) h).1
      cases hmiddle : (part.out.foldl (acceptMessage context link now) (rows, 0)).1.get? key with
      | none => cases (acceptAcks_absent part.ack hmiddle).symm.trans hrow'
      | some middle =>
        obtain ⟨message, hmessage, hkey, hlater⟩ :=
          @acceptMessages_inserted context link now part.out (rows, 0) h key habsent middle hmiddle
        have hin : middle.dir = .in := hlater.dir
        obtain ⟨last, hlast, hkept⟩ :=
          (keeps_counted (acceptAck_keeps link) part.ack _ hsound).2 key middle hmiddle hin
        obtain rfl : last = row := Option.some.inj (hlast.symm.trans hrow')
        exact ⟨message, hmessage, hkey, hlater.trans hkept.1⟩
  obtain ⟨message, hmessage, hkey, hlater⟩ := hreceived
  have hcode : refusalCode now (validMessage message link.projects) = none := by
    cases hcode : refusalCode now (validMessage message link.projects) with
    | none => rfl
    | some code =>
      have hrefused : (insertedRow context link now message).st = some .refused := by
        unfold insertedRow
        dsimp only
        rw [hcode]
        rfl
      have hsettled : (insertedRow context link now message).settled = true := by
        unfold Row.settled
        rw [hrefused]
        rfl
      have hsame := (hlater.outcome hsettled).1
      rw [hst, hrefused] at hsame
      cases hsame
  cases hfields : validMessage message link.projects with
  | none =>
    rw [hfields] at hcode
    cases hcode
  | some fields =>
    rw [hfields] at hcode
    unfold refusalCode at hcode
    dsimp only at hcode
    split at hcode
    · cases hcode
    split at hcode
    · cases hcode
    · refine ⟨message, hmessage, fields, row, hkey, hfields, by omega, by omega, hrow, ?_,
        hlater.receivedAt, hlater.dir⟩
      rw [hlater.at]
      unfold insertedRow
      dsimp only
      rw [hfields]
      rfl

/-! ### The record of an id -/

/-- The reading of the clock that a call takes. -/
def Call.now : Call → Option Int
  | .accept _ now _ => some now
  | .part _ now => some now
  | .prune now => some now
  | _ => none

/-- A message of the part carries the time `time`, or is malformed. -/
def CarriesTime (link : LinkedPeer) (part : SeatMessagePart) (id : String) (time : Int) : Prop :=
  ∀ message ∈ part.out, message.id = id →
    ∀ fields, validMessage message link.projects = some fields → fields.at = time

/-- **What is recorded for an id of a link**, in the states that calls reach from an empty store. -/
structure AcceptedOnce (link : LinkedPeer) (id : String) : Prop where
  /-- A message whose row is not pruned is inserted for delivery once. -/
  once : ∀ first call mid later, let key := inKey link.install id
    let rows := Runs.after (step context) Table.empty first
    Inserts context rows call key → Unpruned context (step context rows call).1 mid key →
      ¬Inserts context (Runs.after (step context) rows (call :: mid)) later key
  /-- A recorded outcome stands until its row is pruned. -/
  stands : ∀ first mid row, let key := inKey link.install id
    let rows := Runs.after (step context) Table.empty first
    rows.get? key = some row → row.settled = true → Unpruned context rows mid key →
      ∃ row', (Runs.after (step context) rows mid).get? key = some row' ∧ row'.settled = true ∧
        ackOf row' = ackOf row
  /-- A part acknowledges the recorded outcome. -/
  answers : ∀ first now ack, let rows := Runs.after (step context) Table.empty first
    ack ∈ (seatMessagesPart context link now rows).2.ack → ack.id = id →
      ∃ row, rows.get? (inKey link.install id) = some row ∧ row.settled = true ∧ ack = ackOf row
  /-- A settled message that is sent again waits for its acknowledgement again. -/
  again : ∀ first now part moved row, let key := inKey link.install id
    let rows := Runs.after (step context) Table.empty first
    rows.get? key = some row → row.settled = true → (∃ message ∈ part.out, message.id = id) →
      (acceptSeatMessages context link now part rows).2 = .ok moved →
        ∃ row', (acceptSeatMessages context link now part rows).1.get? key = some row' ∧
          row'.ackPending = true ∧ row'.settled = true ∧ row'.connection = row.connection ∧
          ackOf row' = ackOf row
  /-- A row of the link's connection that waits is acknowledged by the next parts, ten a part. -/
  acknowledged : ∀ first row, let rows := Runs.after (step context) Table.empty first
    rows.get? (inKey link.install id) = some row → row.settled = true → row.ackPending = true →
      row.connection = link.connection → ∀ nows : List Int,
        (pendingAcks link rows).length ≤ 10 * nows.length →
          ∃ front now back, nows = front ++ now :: back ∧
            ackOf row ∈ (seatMessagesPart context link now
              (Runs.after (step context) rows (front.map (Call.part link)))).2.ack
  /-- A row is kept for thirty-five days. -/
  retained : ∀ first call row, let key := inKey link.install id
    let rows := Runs.after (step context) Table.empty first
    rows.get? key = some row → Prunes rows call key →
      ∃ now, call = .prune now ∧ now - row.receivedAt.getD row.at > 35 * DAY
  /-- A message that was inserted for delivery and is sent again under its time of sending is not
  inserted for delivery again, pruned or not, while the clock does not go back. -/
  unchanged : ∀ first now part mid later part', let key := inKey link.install id
    let rows := Runs.after (step context) Table.empty first
    Inserts context rows (.accept link now part) key →
      (∀ call ∈ mid, ∀ time, call.now = some time → now ≤ time ∧ time ≤ later) →
      (∀ row, (step context rows (.accept link now part)).1.get? key = some row →
        CarriesTime link part' id row.at) →
        ¬Inserts context (Runs.after (step context) rows (.accept link now part :: mid))
          (.accept link later part') key

theorem inserts_received {rows : Rows} (h : Sound rows) {call : Call} {link : LinkedPeer} {id : String}
    (hinserts : Inserts context rows call (inKey link.install id)) :
    ∃ row, (step context rows call).1.get? (inKey link.install id) = some row ∧ row.dir = .in := by
  obtain ⟨-, row, hrow, -⟩ := hinserts
  exact ⟨row, hrow, (step_sound context h call).dir_in hrow⟩

/-- The row that was received at `now` is there, or the clock has left it behind. -/
theorem kept_or_left {rows : Rows} (h : Sound rows) {key : String} {row : Row} {now later : Int}
    (hrow : rows.get? key = some row) (hin : row.dir = .in) (hreceived : row.receivedAt = some now)
    (calls : List Call)
    (hclock : ∀ call ∈ calls, ∀ time, call.now = some time → now ≤ time ∧ time ≤ later) :
    (∃ row', (Runs.after (step context) rows calls).get? key = some row') ∨ now + 35 * DAY < later := by
  induction calls generalizing rows row with
  | nil => exact Or.inl ⟨row, hrow⟩
  | cons call rest ih =>
    by_cases hprunes : Prunes rows call key
    · refine Or.inr ?_
      cases call with
      | prune time =>
        obtain ⟨expired, hexpired, hkey⟩ := hprunes
        have hfilter := List.mem_filter.mp (List.mem_of_mem_take hexpired)
        have hsame : expired = row := by
          have hget := Table.get?_eq_some.mpr ⟨hfilter.1, hkey⟩
          exact Option.some.inj (hget.symm.trans hrow)
        have hold := (of_decide_eq_true hfilter.2).2
        rw [hsame, hreceived, Option.getD_some] at hold
        have htime := (hclock (.prune time) List.mem_cons_self time rfl).2
        omega
      | accept | part | claim | settle | outbound => exact hprunes.elim
    · obtain ⟨row', hrow', hlater⟩ := step_later context h hprunes hrow hin
      exact ih (step_sound context h call) hrow' (hlater.dir.trans hin)
        (hlater.receivedAt.trans hreceived) fun other hother => hclock other (List.mem_cons_of_mem _ hother)

/-- **Inbound seat messages are accepted once.** -/
theorem seat_messages_accepted_once (link : LinkedPeer) (id : String) :
    AcceptedOnce context link id where
  once := by
    intro first call mid later key rows hinserts hunpruned hagain
    have hsound := after_sound context first
    obtain ⟨row, hrow, hin⟩ := inserts_received context hsound hinserts
    obtain ⟨row', hrow', -⟩ := after_later context (step_sound context hsound call) hunpruned hrow hin
    exact nomatch hagain.1.symm.trans hrow'
  stands := by
    intro first mid row key rows hrow hsettled hunpruned
    have hsound := after_sound context first
    obtain ⟨row', hrow', hlater⟩ := after_later context hsound hunpruned hrow (hsound.dir_in hrow)
    exact ⟨row', hrow', hlater.settled hsettled, hlater.ackOf hsettled⟩
  answers := by
    rintro first now ack rows hack rfl
    exact ack_recorded context (after_sound context first) hack
  again := by
    rintro first now part moved row key rows hrow hsettled ⟨message, hmessage, rfl⟩ hok
    obtain ⟨row', hrow', hlater, hwaits⟩ :=
      accept_again context (after_sound context first) hok hmessage hrow hsettled
    exact ⟨row', hrow', hwaits, hlater.settled hsettled, hlater.connection, hlater.ackOf hsettled⟩
  acknowledged := by
    intro first row rows hrow hsettled hwaits hconnection nows hroom
    have hsound := after_sound context first
    have hlink : row.link = link.install := by
      apply hsound.link_eq _ hrow
      intro hcolon
      exact absurd (List.all_eq_true.mp link.installId ':' hcolon) (by decide)
    have hpending : row ∈ pendingAcks link rows :=
      mem_pendingAcks.mpr ⟨(Table.get?_eq_some.mp hrow).1, hsound.dir_in hrow, hlink, hconnection, hwaits,
        hsettled⟩
    exact acknowledged_by_parts context hsound hpending nows hroom
  retained := by
    intro first call row key rows hrow hprunes
    cases call with
    | prune now =>
        obtain ⟨expired, hexpired, hkey⟩ := hprunes
        have hfilter := List.mem_filter.mp (List.mem_of_mem_take hexpired)
        have hget := Table.get?_eq_some.mpr ⟨hfilter.1, hkey⟩
        obtain rfl : expired = row := Option.some.inj (hget.symm.trans hrow)
        exact ⟨now, rfl, (of_decide_eq_true hfilter.2).2⟩
    | accept | part | claim | settle | outbound => exact hprunes.elim
  unchanged := by
    intro first now part mid later part' key rows hinserts hclock htime hagain
    have hsound := after_sound context first
    obtain ⟨-, -, fields, row, -, -, hahead, -, hrow, hat, hreceived, hin⟩ :=
      inserts_accept context hsound hinserts
    have hstep := step_sound context hsound (.accept link now part)
    rcases kept_or_left context hstep hrow hin hreceived mid hclock with ⟨row', hrow'⟩ | hleft
    · exact nomatch hagain.1.symm.trans hrow'
    · have hend : Sound (Runs.after (step context) rows (.accept link now part :: mid)) :=
        Runs.after_invariant (P := Sound) (fun _ call h => step_sound context h call) hsound _
      obtain ⟨message, hmessage, fields', -, hkey, hvalid, -, hwindow, -⟩ :=
        inserts_accept context hend hagain
      have hsame := htime row hrow message hmessage (inKey_right hkey) fields' hvalid
      rw [hsame, hat] at hwindow
      unfold DAY at hwindow hleft
      omega

end Calls

/-! ### After the replay window -/

section Pruned

def plainContext : Context := ⟨fun _ => "digest", fun _ _ => "Board on peer", fun _ => 0⟩

def sharedRepo : String := "repo-0123456789abcdef0123456789abcdef"

def peer : LinkedPeer :=
  ⟨"bbbbbbbb-0000-4000-8000-000000000000", "peer:1:grant", [sharedRepo], by decide⟩

def messageId : String := "11111111-1111-4111-8111-111111111111"

/-- The message under the time that it says it was sent. -/
def greeting (sent : Int) : SeatMessagePart :=
  ⟨[⟨messageId, [("p", .text sharedRepo), ("at", .integer sent), ("k", .text "0123456789abcdef"),
    ("t", .text "hello")]⟩], []⟩

def drainLease : Lease := ⟨7, none, "token"⟩

/-- The message is delivered and accepted; its row is pruned thirty-five days later. -/
def deliveredAndPruned : List Call :=
  [.accept peer 1000 (greeting 1000),
    .claim peer (insertedRow plainContext peer 1000
      ⟨messageId, [("p", .text sharedRepo), ("at", .integer 1000), ("k", .text "0123456789abcdef"),
        ("t", .text "hello")]⟩) (fun _ => false) drainLease,
    .settle (inKey peer.install messageId) "token" (.settled .accepted none (some "operation")),
    .prune (36 * DAY)]

/-- What is recorded for the message after the calls. -/
def recorded (calls : List Call) : Option (Option RowState × Option String) :=
  ((Runs.after (step plainContext) Table.empty calls).get? (inKey peer.install messageId)).map
    fun row => (row.st, row.code)

/-- **Two things that a pruned row forgets.**  The message is accepted, and refused when it is sent
again; under another time of sending it is inserted for delivery again. -/
theorem pruned_forgotten :
    recorded (deliveredAndPruned.take 3) = some (some .accepted, none) ∧
      recorded (deliveredAndPruned ++ [.accept peer (36 * DAY) (greeting 1000)]) =
        some (some .refused, some "expired") ∧
      recorded (deliveredAndPruned.take 1) = some (some .received, none) ∧
      recorded deliveredAndPruned = none ∧
      recorded (deliveredAndPruned ++ [.accept peer (36 * DAY) (greeting (36 * DAY))]) =
        some (some .received, none) := by
  decide +kernel

end Pruned

end Delegatus.SeatInbox
