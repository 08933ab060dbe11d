import Delegatus.Runs
import Delegatus.SeatInbox

/-!
# Recorded once

A row of the inbox keeps its identity and, once settled, its outcome until a drain prunes it.  So a
message is inserted for delivery once, its acknowledgement is always the recorded one, and a message
that is sent again waits for the same acknowledgement again.
-/

namespace Delegatus.SeatInbox

open SeatMessages (Ack Direction RowState SeatMessageRefusal DAY)

/-! ### Sound rows -/

/-- What holds of every stored row: keys follow the direction, and an inbound row with a lease is
being delivered. -/
structure SoundRow (row : Row) : Prop where
  inKeyed : row.dir = .in → row.key = inKey row.link row.id
  outKeyed : row.dir = .out → row.key.toList.take 4 = "out:".toList
  leased : row.dir = .in → row.lease.isSome = true → row.st = some .delivering
  linked : row.dir = .in → ':' ∉ row.link.toList

def Sound (rows : Rows) : Prop := ∀ row ∈ rows.rows, SoundRow row

theorem sound_empty : Sound Table.empty := fun _ hrow => nomatch hrow

theorem Sound.set {rows : Rows} (h : Sound rows) {row : Row} (hrow : SoundRow row) :
    Sound (rows.set row) := by
  intro other hother
  rcases Table.mem_set.mp hother with rfl | ⟨hother, -⟩
  · exact hrow
  · exact h other hother

theorem Sound.get? {rows : Rows} (h : Sound rows) {key : String} {row : Row}
    (hrow : rows.get? key = some row) : SoundRow row ∧ row.key = key := by
  obtain ⟨hmem, hkey⟩ := Table.get?_eq_some.mp hrow
  exact ⟨h row hmem, hkey⟩

/-- A row under an inbound key is an inbound row. -/
theorem Sound.dir_in {rows : Rows} (h : Sound rows) {install id : String} {row : Row}
    (hrow : rows.get? (inKey install id) = some row) : row.dir = .in := by
  obtain ⟨hsound, hkey⟩ := h.get? hrow
  cases hdir : row.dir with
  | «in» => rfl
  | out =>
    have hout := hsound.outKeyed hdir
    rw [hkey, inKey, String.toList_append, String.toList_append, String.toList_append] at hout
    exact nomatch hout

theorem inKey_right {install id id' : String} (h : inKey install id = inKey install id') : id = id' := by
  have htexts := congrArg String.toList h
  simp only [inKey, String.toList_append, List.append_assoc, List.append_cancel_left_eq] at htexts
  exact String.toList_inj.mp htexts

/-- The link of an inbound row is the one of its key. -/
theorem Sound.link_eq {rows : Rows} (h : Sound rows) {install id : String}
    (hinstall : ':' ∉ install.toList) {row : Row} (hrow : rows.get? (inKey install id) = some row) :
    row.link = install := by
  obtain ⟨hsound, hkey⟩ := h.get? hrow
  have hin := h.dir_in hrow
  rw [hsound.inKeyed hin] at hkey
  have htexts := congrArg (fun text => (text.toList.drop 3).takeWhile (· ≠ ':')) hkey
  have hfront : ∀ link id : String, ':' ∉ link.toList →
      ((inKey link id).toList.drop 3).takeWhile (fun c => decide (c ≠ ':')) = link.toList := by
    intro link id hlink
    have hdrop : (inKey link id).toList.drop 3 = link.toList ++ ':' :: id.toList := by
      simp [inKey, String.toList_append]
    rw [hdrop, List.takeWhile_append_of_pos]
    · simp
    · intro c hc
      rw [decide_eq_true_eq]
      exact fun hcolon => hlink (hcolon ▸ hc)
  rw [hfront row.link row.id (hsound.linked hin), hfront install id hinstall] at htexts
  exact String.toList_inj.mp htexts

/-! ### What a call keeps of a row -/

/-- The row later: its identity stays, and once it is settled so does its outcome. -/
structure Later (row row' : Row) : Prop where
  key : row'.key = row.key
  dir : row'.dir = row.dir
  id : row'.id = row.id
  link : row'.link = row.link
  connection : row'.connection = row.connection
  «at» : row'.at = row.at
  receivedAt : row'.receivedAt = row.receivedAt
  outcome : row.settled = true → row'.st = row.st ∧ row'.code = row.code

theorem Later.refl (row : Row) : Later row row := ⟨rfl, rfl, rfl, rfl, rfl, rfl, rfl, fun _ => ⟨rfl, rfl⟩⟩

theorem settled_congr {row row' : Row} (h : row'.st = row.st) : row'.settled = row.settled := by
  unfold Row.settled
  rw [h]

theorem Later.settled {row row' : Row} (h : Later row row') (hsettled : row.settled = true) :
    row'.settled = true := by
  rw [settled_congr (h.outcome hsettled).1]
  exact hsettled

theorem Later.trans {row middle last : Row} (h : Later row middle) (h' : Later middle last) :
    Later row last where
  key := h'.key.trans h.key
  dir := h'.dir.trans h.dir
  id := h'.id.trans h.id
  link := h'.link.trans h.link
  connection := h'.connection.trans h.connection
  «at» := h'.at.trans h.at
  receivedAt := h'.receivedAt.trans h.receivedAt
  outcome := by
    intro hsettled
    obtain ⟨hst, hcode⟩ := h.outcome hsettled
    obtain ⟨hst', hcode'⟩ := h'.outcome (h.settled hsettled)
    exact ⟨hst'.trans hst, hcode'.trans hcode⟩

theorem Later.ackOf {row row' : Row} (h : Later row row') (hsettled : row.settled = true) :
    ackOf row' = ackOf row := by
  obtain ⟨hst, hcode⟩ := h.outcome hsettled
  unfold SeatInbox.ackOf
  rw [h.id, hst, hcode]

/-- The row later, still waiting for its acknowledgement where it was. -/
def Waits (row row' : Row) : Prop := Later row row' ∧ (row.ackPending = true → row'.ackPending = true)

theorem Waits.refl (row : Row) : Waits row row := ⟨Later.refl row, fun h => h⟩

theorem Waits.trans {row middle last : Row} (h : Waits row middle) (h' : Waits middle last) :
    Waits row last := ⟨h.1.trans h'.1, fun hpending => h'.2 (h.2 hpending)⟩

/-- What is asked of a relation between a row and what a call left of it. -/
structure Carries (R : Row → Row → Prop) : Prop where
  refl : ∀ row, R row row
  trans : ∀ a b c, R a b → R b c → R a c
  dir : ∀ a b, R a b → b.dir = a.dir

theorem carries_later : Carries Later := ⟨Later.refl, fun _ _ _ => Later.trans, fun _ _ h => h.dir⟩

theorem carries_waits : Carries Waits := ⟨Waits.refl, fun _ _ _ => Waits.trans, fun _ _ h => h.1.dir⟩

/-- Every inbound row is still there, as `R` relates them; the rows stay sound. -/
def Keeps (R : Row → Row → Prop) (rows rows' : Rows) : Prop :=
  Sound rows → Sound rows' ∧
    ∀ key row, rows.get? key = some row → row.dir = .in →
      ∃ row', rows'.get? key = some row' ∧ R row row'

section Keeps

variable {R : Row → Row → Prop} {rows middle last : Rows}

theorem Keeps.refl (hR : Carries R) (rows : Rows) : Keeps R rows rows :=
  fun h => ⟨h, fun _ row hrow _ => ⟨row, hrow, hR.refl row⟩⟩

theorem Keeps.trans (hR : Carries R) (h : Keeps R rows middle) (h' : Keeps R middle last) :
    Keeps R rows last := by
  intro hsound
  obtain ⟨hmiddle, hkept⟩ := h hsound
  obtain ⟨hlast, hkept'⟩ := h' hmiddle
  refine ⟨hlast, fun key row hrow hin => ?_⟩
  obtain ⟨row', hrow', hfirst⟩ := hkept key row hrow hin
  obtain ⟨row'', hrow'', hsecond⟩ := hkept' key row' hrow' ((hR.dir _ _ hfirst).trans hin)
  exact ⟨row'', hrow'', hR.trans _ _ _ hfirst hsecond⟩

theorem Keeps.later (h : Keeps Waits rows last) : Keeps Later rows last := by
  intro hsound
  obtain ⟨hsound', hkept⟩ := h hsound
  refine ⟨hsound', fun key row hrow hin => ?_⟩
  obtain ⟨row', hrow', hwaits⟩ := hkept key row hrow hin
  exact ⟨row', hrow', hwaits.1⟩

/-- A put keeps the inbound rows where the row it replaces, if any, is related to the new one. -/
theorem keeps_set (hR : Carries R) {row : Row} (hsound : Sound rows → SoundRow row)
    (h : ∀ held, rows.get? row.key = some held → held.dir = .in → Sound rows → R held row) :
    Keeps R rows (rows.set row) := by
  intro hrows
  refine ⟨hrows.set (hsound hrows), fun key held hheld hin => ?_⟩
  rw [Table.get?_set]
  by_cases hkey : key = row.key
  · rw [if_pos hkey]
    exact ⟨row, rfl, h held (hkey ▸ hheld) hin hrows⟩
  · rw [if_neg hkey]
    exact ⟨held, hheld, hR.refl held⟩

theorem keeps_foldl (hR : Carries R) {α : Type} {f : Rows → α → Rows}
    (h : ∀ rows item, Keeps R rows (f rows item)) (items : List α) (rows : Rows) :
    Keeps R rows (items.foldl f rows) := by
  induction items generalizing rows with
  | nil => exact Keeps.refl hR rows
  | cons item rest ih => exact (h rows item).trans hR (ih (f rows item))

end Keeps

/-! ### The calls -/

section Calls

variable (context : Context)

theorem soundRow_inserted (link : LinkedPeer) (now : Int) (message : Message) :
    SoundRow (insertedRow context link now message) where
  inKeyed := fun _ => rfl
  outKeyed := fun h => nomatch h
  leased := fun _ h => nomatch h
  linked := by
    intro _ hcolon
    exact absurd (List.all_eq_true.mp link.installId ':' hcolon) (by decide)

/-- A row with another mark of its acknowledgement, time of sending, text or answer of the peer. -/
theorem soundRow_marked {row : Row} (h : SoundRow row) (pending : Bool) (sentAt : Option Int)
    (t : Option String) (ack : Option Ack) :
    SoundRow { row with ackPending := pending, sentAt := sentAt, t := t, ack := ack } :=
  ⟨h.inKeyed, h.outKeyed, h.leased, h.linked⟩

theorem acceptMessage_keeps (link : LinkedPeer) (now : Int) (state : Rows × Nat) (message : Message) :
    Keeps Waits state.1 (acceptMessage context link now state message).1 := by
  unfold acceptMessage
  cases hheld : state.1.get? (inKey link.install message.id) with
  | none =>
    apply keeps_set carries_waits
    · exact fun _ => soundRow_inserted context link now message
    · intro held hsame
      exact nomatch hheld.symm.trans hsame
  | some prior =>
    dsimp only
    split
    · apply keeps_set carries_waits
      · intro hrows
        exact soundRow_marked (hrows.get? hheld).1 true prior.sentAt prior.t prior.ack
      · intro held hsame _ hrows
        have hkey := (hrows.get? hheld).2
        obtain rfl : prior = held := Option.some.inj (hheld.symm.trans (hkey ▸ hsame))
        exact ⟨⟨rfl, rfl, rfl, rfl, rfl, rfl, rfl, fun _ => ⟨rfl, rfl⟩⟩, fun _ => rfl⟩
    · exact Keeps.refl carries_waits _

theorem acceptAck_keeps (link : LinkedPeer) (state : Rows × Nat) (ack : Ack) :
    Keeps Waits state.1 (acceptAck link state ack).1 := by
  unfold acceptAck
  dsimp only
  split
  · rename_i original hfind
    have hmem := List.mem_of_find?_eq_some hfind
    have hwanted := List.find?_some hfind
    rw [decide_eq_true_eq] at hwanted
    have hout := hwanted.1
    split
    · exact Keeps.refl carries_waits _
    · apply keeps_set carries_waits
      · intro hrows
        exact soundRow_marked (hrows original hmem) original.ackPending original.sentAt none (some ack)
      · intro held hsame hin _
        have hget : state.1.get? original.key = some original :=
          Table.get?_eq_some.mpr ⟨hmem, rfl⟩
        obtain rfl : original = held := Option.some.inj (hget.symm.trans hsame)
        exact nomatch hout.symm.trans hin
  · exact Keeps.refl carries_waits _

/-- Folding a step over the rows of a counting state. -/
theorem keeps_counted {α : Type} {f : Rows × Nat → α → Rows × Nat}
    (h : ∀ state item, Keeps Waits state.1 (f state item).1) (items : List α) (state : Rows × Nat) :
    Keeps Waits state.1 (items.foldl f state).1 := by
  induction items generalizing state with
  | nil => exact Keeps.refl carries_waits _
  | cons item rest ih => exact (h state item).trans carries_waits (ih (f state item))

theorem acceptSeatMessages_keeps (link : LinkedPeer) (now : Int) (part : SeatMessagePart)
    (rows : Rows) : Keeps Waits rows (acceptSeatMessages context link now part rows).1 := by
  unfold acceptSeatMessages
  split
  · exact Keeps.refl carries_waits _
  split
  · exact Keeps.refl carries_waits _
  · exact (keeps_counted (acceptMessage_keeps context link now) part.out (rows, 0)).trans carries_waits
      (keeps_counted (acceptAck_keeps link) part.ack _)

theorem clearPending_keeps (rows : Rows) (key : String) : Keeps Later rows (clearPending rows key) := by
  unfold clearPending
  cases hheld : rows.get? key with
  | none => exact Keeps.refl carries_later _
  | some row =>
    dsimp only
    split
    · apply keeps_set carries_later
      · intro hrows
        exact soundRow_marked (hrows.get? hheld).1 false row.sentAt row.t row.ack
      · intro held hsame _ hrows
        have hkey := (hrows.get? hheld).2
        obtain rfl : row = held := Option.some.inj (hheld.symm.trans (hkey ▸ hsame))
        exact ⟨rfl, rfl, rfl, rfl, rfl, rfl, rfl, fun _ => ⟨rfl, rfl⟩⟩
    · exact Keeps.refl carries_later _

theorem markSent_keeps (now : Int) (rows : Rows) (sent : Row) :
    Keeps Waits rows (markSent now rows sent) := by
  unfold markSent
  split
  · exact Keeps.refl carries_waits _
  cases hheld : rows.get? sent.key with
  | none => exact Keeps.refl carries_waits _
  | some held =>
    dsimp only
    split
    · exact Keeps.refl carries_waits _
    · apply keeps_set carries_waits
      · intro hrows
        exact soundRow_marked (hrows.get? hheld).1 held.ackPending (some now) held.t held.ack
      · intro other hsame _ hrows
        have hkey := (hrows.get? hheld).2
        obtain rfl : held = other := Option.some.inj (hheld.symm.trans (hkey ▸ hsame))
        exact ⟨⟨rfl, rfl, rfl, rfl, rfl, rfl, rfl, fun _ => ⟨rfl, rfl⟩⟩, fun h => h⟩

theorem seatMessagesPart_keeps (link : LinkedPeer) (now : Int) (rows : Rows) :
    Keeps Later rows (seatMessagesPart context link now rows).1 := by
  unfold seatMessagesPart
  dsimp only
  exact (keeps_foldl carries_later clearPending_keeps _ rows).trans carries_later
    (keeps_foldl carries_waits (markSent_keeps now) _ _).later

theorem claim_keeps (link : LinkedPeer) (seen : Row) (leaseAlive : Lease → Bool) (lease : Lease)
    (rows : Rows) : Keeps Waits rows (claim link seen leaseAlive lease rows) := by
  unfold claim
  split
  · rename_i hseen
    cases hheld : rows.get? seen.key with
    | none => exact Keeps.refl carries_waits _
    | some current =>
      dsimp only
      split
      · rename_i hsame
        -- a claimed row is waiting for its delivery, so it has no outcome to lose
        have hunsettled : current.settled = false := by
          unfold Row.settled
          rw [hsame.1]
          rcases hseen.2.2.2.1 with hst | hst <;> rw [hst] <;> decide
        apply keeps_set carries_waits
        · intro hrows
          obtain ⟨hsound, -⟩ := hrows.get? hheld
          exact ⟨hsound.inKeyed, hsound.outKeyed, fun _ _ => rfl, hsound.linked⟩
        · intro held hget _ hrows
          have hkey := (hrows.get? hheld).2
          obtain rfl : current = held := Option.some.inj (hheld.symm.trans (hkey ▸ hget))
          refine ⟨⟨rfl, rfl, rfl, rfl, rfl, rfl, rfl, fun hsettled => ?_⟩, fun h => h⟩
          exact nomatch hunsettled.symm.trans hsettled
      · exact Keeps.refl carries_waits _
  · exact Keeps.refl carries_waits _

theorem settle_keeps (key token : String) (outcome : Delivery) (rows : Rows) :
    Keeps Waits rows (settle key token outcome rows) := by
  unfold settle
  cases hheld : rows.get? key with
  | none => exact Keeps.refl carries_waits _
  | some current =>
    dsimp only
    split
    · rename_i hlease
      have hleased : current.lease.isSome = true := by
        obtain ⟨lease, hsome, -⟩ := Option.map_eq_some_iff.mp hlease
        rw [hsome]
        rfl
      apply keeps_set carries_waits
      · intro hrows
        obtain ⟨hsound, -⟩ := hrows.get? hheld
        cases outcome with
        | retry => exact ⟨hsound.inKeyed, hsound.outKeyed, fun _ h => (nomatch h), hsound.linked⟩
        | settled st code operationId =>
          exact ⟨hsound.inKeyed, hsound.outKeyed, fun _ h => (nomatch h), hsound.linked⟩
      · intro held hget hin hrows
        obtain ⟨hsound, hkey⟩ := hrows.get? hheld
        have hsettledKey : (settledRow current outcome).key = key := by
          cases outcome <;> exact hkey
        obtain rfl : current = held := Option.some.inj (hheld.symm.trans (hsettledKey ▸ hget))
        -- the lease says that the row is being delivered
        have hunsettled : current.settled = false := by
          unfold Row.settled
          rw [hsound.leased hin hleased]
          decide
        have hnothing : ∀ P : Prop, current.settled = true → P :=
          fun P hsettled => nomatch hunsettled.symm.trans hsettled
        cases outcome with
        | retry => exact ⟨⟨rfl, rfl, rfl, rfl, rfl, rfl, rfl, hnothing _⟩, fun h => h⟩
        | settled st code operationId =>
          exact ⟨⟨rfl, rfl, rfl, rfl, rfl, rfl, rfl, hnothing _⟩, fun _ => rfl⟩
    · exact Keeps.refl carries_waits _

theorem outbound_keeps {row : Row} (hout : row.dir = .out)
    (hkey : row.key.toList.take 4 = "out:".toList) (rows : Rows) : Keeps Waits rows (rows.set row) := by
  apply keeps_set carries_waits
  · intro _
    have hnever : ∀ P : Prop, row.dir = .in → P := fun _ h => nomatch hout.symm.trans h
    exact ⟨hnever _, fun _ => hkey, hnever _, hnever _⟩
  · intro held hget hin hrows
    obtain ⟨hsound, hheldKey⟩ := hrows.get? hget
    rw [← hheldKey, hsound.inKeyed hin, inKey, String.toList_append, String.toList_append,
      String.toList_append] at hkey
    exact nomatch hkey

/-! ### Pruning -/

theorem get?_prune (now : Int) (rows : Rows) (key : String) :
    (prune now rows).get? key =
      if ∃ row ∈ expiredRows now rows, row.key = key then none else rows.get? key := by
  unfold prune
  generalize expiredRows now rows = expired
  induction expired generalizing rows with
  | nil => simp
  | cons first rest ih =>
    rw [List.foldl_cons, ih, Table.get?_delete]
    by_cases hrest : ∃ row ∈ rest, row.key = key
    · rw [if_pos hrest, if_pos]
      obtain ⟨row, hrow, hkey⟩ := hrest
      exact ⟨row, List.mem_cons_of_mem _ hrow, hkey⟩
    · rw [if_neg hrest]
      by_cases hfirst : key = first.key
      · rw [if_pos hfirst, if_pos ⟨first, List.mem_cons_self, hfirst.symm⟩]
      · rw [if_neg hfirst, if_neg]
        rintro ⟨row, hrow, hkey⟩
        rcases List.mem_cons.mp hrow with rfl | hrow
        · exact hfirst hkey.symm
        · exact hrest ⟨row, hrow, hkey⟩

theorem sound_prune {rows : Rows} (h : Sound rows) (now : Int) : Sound (prune now rows) := by
  unfold prune
  generalize expiredRows now rows = expired
  induction expired generalizing rows with
  | nil => exact h
  | cons first rest ih =>
    rw [List.foldl_cons]
    apply ih
    intro row hrow
    exact h row (Table.mem_delete.mp hrow).1

/-- The call prunes the row of the key. -/
def Prunes (rows : Rows) (call : Call) (key : String) : Prop :=
  match call with
  | .prune now => ∃ row ∈ expiredRows now rows, row.key = key
  | _ => False

/-! ### Steps and runs -/

theorem step_sound {rows : Rows} (h : Sound rows) (call : Call) : Sound (step context rows call).1 := by
  cases call with
  | accept link now part => exact (acceptSeatMessages_keeps context link now part rows h).1
  | part link now => exact (seatMessagesPart_keeps context link now rows h).1
  | claim link seen leaseAlive lease => exact (claim_keeps link seen leaseAlive lease rows h).1
  | settle key token outcome => exact (settle_keeps key token outcome rows h).1
  | prune now => exact sound_prune h now
  | outbound row =>
    unfold step
    dsimp only
    split
    · rename_i hrow
      exact (outbound_keeps hrow.1 hrow.2 rows h).1
    · exact h

/-- **One call**: an inbound row that it does not prune is there afterwards, with its outcome. -/
theorem step_later {rows : Rows} (h : Sound rows) {call : Call} {key : String}
    (hprunes : ¬Prunes rows call key) {row : Row} (hrow : rows.get? key = some row)
    (hin : row.dir = .in) : ∃ row', (step context rows call).1.get? key = some row' ∧ Later row row' := by
  cases call with
  | accept link now part =>
    exact ((acceptSeatMessages_keeps context link now part rows).later h).2 key row hrow hin
  | part link now => exact (seatMessagesPart_keeps context link now rows h).2 key row hrow hin
  | claim link seen leaseAlive lease =>
    exact ((claim_keeps link seen leaseAlive lease rows).later h).2 key row hrow hin
  | settle other token outcome => exact ((settle_keeps other token outcome rows).later h).2 key row hrow hin
  | prune now =>
    refine ⟨row, ?_, Later.refl row⟩
    show (prune now rows).get? key = some row
    rw [get?_prune]
    exact (if_neg hprunes).trans hrow
  | outbound other =>
    unfold step
    dsimp only
    split
    · rename_i hother
      exact ((outbound_keeps hother.1 hother.2 rows).later h).2 key row hrow hin
    · exact ⟨row, hrow, Later.refl row⟩

/-- No call of the run prunes the row of the key. -/
def Unpruned (rows : Rows) (calls : List Call) (key : String) : Prop :=
  Runs.EveryCall (step context) (fun rows call => ¬Prunes rows call key) rows calls

theorem after_sound (calls : List Call) : Sound (Runs.after (step context) Table.empty calls) :=
  Runs.after_invariant (P := Sound) (fun _ call h => step_sound context h call) sound_empty calls

/-- **A run** that does not prune the row. -/
theorem after_later {rows : Rows} (h : Sound rows) {calls : List Call} {key : String}
    (hunpruned : Unpruned context rows calls key) {row : Row} (hrow : rows.get? key = some row)
    (hin : row.dir = .in) :
    ∃ row', (Runs.after (step context) rows calls).get? key = some row' ∧ Later row row' := by
  have hend := Runs.after_of_everyCall
    (P := fun rows => Sound rows ∧ ∃ row', rows.get? key = some row' ∧ Later row row')
    (fun rows call hrows hkept => by
      obtain ⟨hsound, middle, hmiddle, hlater⟩ := hrows
      obtain ⟨row', hrow', hnext⟩ := step_later context hsound hkept hmiddle (hlater.dir.trans hin)
      exact ⟨step_sound context hsound call, row', hrow', hlater.trans hnext⟩)
    ⟨h, row, hrow, Later.refl row⟩ hunpruned
  exact hend.2

end Calls

end Delegatus.SeatInbox
