import Delegatus.HostTurnRecord

/-!
# Reading in chunks is reading records

Wherever the chunk boundaries fall, the loop visits every record once, newest first: what it has yet
to visit is the file before its position and the carried bytes, and each pass visits the last records
of that and keeps the rest.
-/

namespace Delegatus.EventLedger

open JsonText (Text)
open Utf8Decoding (NEWLINE decode)

variable {checks : EventChecks} {framesBefore : Nat}

/-! ### Visiting one list after another -/

def Stopped (framesBefore : Nat) (scan : Scan) : Prop :=
  scan.malformed ≠ none ∨ enough framesBefore scan = true

theorem visitLines_append {scan : Scan} (h : ¬Stopped framesBefore scan) (front back : List Text) :
    (Stopped framesBefore (visitLines checks framesBefore scan front) →
      visitLines checks framesBefore scan (front ++ back) = visitLines checks framesBefore scan front) ∧
    (¬Stopped framesBefore (visitLines checks framesBefore scan front) →
      visitLines checks framesBefore scan (front ++ back) =
        visitLines checks framesBefore (visitLines checks framesBefore scan front) back) := by
  induction front generalizing scan with
  | nil => exact ⟨fun hstopped => absurd hstopped h, fun _ => rfl⟩
  | cons line front ih =>
    have hgoing : ¬scan.malformed ≠ none := fun hmalformed => h (Or.inl hmalformed)
    rw [List.cons_append, visitLines, visitLines, if_neg hgoing, if_neg hgoing]
    dsimp only
    generalize (if line = [] then
      { scan with malformed := some "the host ledger holds an empty record" }
      else visit checks scan line) = next
    by_cases henough : enough framesBefore next = true
    · rw [if_pos henough, if_pos henough]
      exact ⟨fun _ => rfl, fun hnot => absurd (Or.inr henough) hnot⟩
    · rw [if_neg henough, if_neg henough]
      by_cases hmalformed : next.malformed = none
      · exact ih fun hstopped => hstopped.elim (fun hne => hne hmalformed) henough
      · have hhalt : ∀ lines, visitLines checks framesBefore next lines = next := by
          intro lines
          cases lines with
          | nil => rfl
          | cons line lines => rw [visitLines, if_pos hmalformed]
        rw [hhalt, hhalt]
        exact ⟨fun _ => rfl, fun hnot => absurd (Or.inl hmalformed) hnot⟩

theorem visitLines_stopped {scan : Scan} (h : ¬Stopped framesBefore scan) (front back : List Text)
    (hstopped : Stopped framesBefore (visitLines checks framesBefore scan front)) :
    visitLines checks framesBefore scan (front ++ back) = visitLines checks framesBefore scan front :=
  (visitLines_append h front back).1 hstopped

theorem visitLines_goesOn {scan : Scan} (h : ¬Stopped framesBefore scan) (front back : List Text)
    (hgoing : ¬Stopped framesBefore (visitLines checks framesBefore scan front)) :
    visitLines checks framesBefore scan (front ++ back) =
      visitLines checks framesBefore (visitLines checks framesBefore scan front) back :=
  (visitLines_append h front back).2 hgoing

/-! ### Records -/

theorem recordsOf_append (front back : List UInt8) :
    recordsOf (front ++ NEWLINE :: back) = front.splitOn NEWLINE ++ recordsOf back := by
  unfold recordsOf
  rw [List.splitOn_append_cons_self, List.dropLast_append_of_ne_nil (List.splitOn_ne_nil NEWLINE back)]

theorem recordsOf_ended (bytes : List UInt8) :
    recordsOf (bytes ++ [NEWLINE]) = bytes.splitOn NEWLINE := by
  rw [recordsOf_append]
  exact List.append_nil _

theorem lastLine_append (front back : List UInt8) :
    lastLine (front ++ NEWLINE :: back) = lastLine back := by
  unfold lastLine
  simp only [List.splitOn_append_cons_self]
  exact List.getLast_append_of_ne_nil _ _

theorem lastLine_ended (bytes : List UInt8) : lastLine (bytes ++ [NEWLINE]) = [] := lastLine_append bytes []

/-- The order in which the records of a stretch of bytes are visited. -/
def newestFirst (bytes : List UInt8) : List Text := ((recordsOf bytes).map decode).reverse

theorem newestFirst_append (front back : List UInt8) :
    newestFirst (front ++ NEWLINE :: back) = newestFirst back ++ newestFirst (front ++ [NEWLINE]) := by
  unfold newestFirst
  rw [recordsOf_append, recordsOf_ended, List.map_append, List.reverse_append]

/-- What one stretch of data gives the visits. -/
theorem visitData_eq (cursor : Cursor) (data : List UInt8)
    (h : cursor.newest = true ∨ lastLine data = []) :
    visitData checks framesBefore cursor data =
      { cursor with
        newest := false
        complete := cursor.complete && !(cursor.newest && decide (lastLine data ≠ []))
        scan := visitLines checks framesBefore cursor.scan (newestFirst data) } := by
  have hlines : (decode data).splitOn 10 = (data.splitOn NEWLINE).map decode :=
    Utf8Decoding.decode_splitOn data
  have htorn : ((data.splitOn NEWLINE).map decode).getLastD [] = decode (lastLine data) := by
    rw [List.getLastD_eq_getLast?, List.getLast?_map,
      List.getLast?_eq_some_getLast (List.splitOn_ne_nil NEWLINE data)]
    rfl
  have hempty : (decode (lastLine data) ≠ []) ↔ lastLine data ≠ [] := not_congr Utf8Decoding.decode_eq_nil
  unfold visitData
  dsimp only
  rw [hlines, htorn, ← List.map_dropLast]
  have hkept : ¬(cursor.newest = false ∧ decode (lastLine data) ≠ []) := by
    rintro ⟨hnewest, hne⟩
    rcases h with h | h
    · exact nomatch h.symm.trans hnewest
    · exact hempty.mp hne h
  rw [if_neg hkept]
  simp only [hempty]
  rfl

/-! ### One pass -/

/-- The bytes that are still to be visited. -/
def unread (bytes : List UInt8) (cursor : Cursor) : List UInt8 :=
  bytes.take cursor.position ++ cursor.carry

structure Going (bytes : List UInt8) (cursor : Cursor) : Prop where
  within : cursor.position ≤ bytes.length
  done : cursor.position = 0 → cursor.carry = []
  ended : cursor.newest = false →
    unread bytes cursor = [] ∨ ∃ front, unread bytes cursor = front ++ [NEWLINE]

/-- A pass that visits the last stretch of what is unread. -/
structure Visited (checks : EventChecks) (framesBefore : Nat) (bytes : List UInt8) (cursor next : Cursor)
    (data : List UInt8) : Prop where
  scan : next.scan = visitLines checks framesBefore cursor.scan (newestFirst data)
  complete : next.complete = (cursor.complete && !(cursor.newest && decide (lastLine data ≠ [])))
  newest : next.newest = false
  order : newestFirst (unread bytes cursor) = newestFirst data ++ newestFirst (unread bytes next)
  last : lastLine (unread bytes cursor) = lastLine data

theorem Going.last_nil {bytes : List UInt8} {cursor : Cursor} (h : Going bytes cursor)
    (hnewest : cursor.newest = false) : lastLine (unread bytes cursor) = [] := by
  rcases h.ended hnewest with hnil | ⟨front, hfront⟩
  · rw [hnil]
    rfl
  · rw [hfront, lastLine_ended]

theorem exists_cut_of_idxOf {data : List UInt8} {index : Nat} (h : data.idxOf? NEWLINE = some index) :
    ∃ front back, data = front ++ NEWLINE :: back ∧ data.drop (index + 1) = back ∧
      data.take (index + 1) = front ++ [NEWLINE] := by
  obtain ⟨hlt, hat, -⟩ := List.idxOf?_eq_some_iff.mp h
  refine ⟨data.take index, data.drop (index + 1), ?_, rfl, ?_⟩
  · rw [← hat, ← List.drop_eq_getElem_cons hlt, List.take_append_drop]
  · rw [← hat, List.take_append_getElem hlt]

/-- The data of a pass with the bytes before it is what is unread. -/
theorem unread_eq {bytes : List UInt8} {cursor : Cursor} (length : Nat) (hlength : length ≤ cursor.position) :
    bytes.take (cursor.position - length) ++
      ((bytes.drop (cursor.position - length)).take length ++ cursor.carry) = unread bytes cursor := by
  rw [← List.append_assoc, ← List.take_add, Nat.sub_add_cancel hlength]
  rfl

theorem pass {bytes : List UInt8} {step : Nat} {cursor : Cursor} (h : Going bytes cursor) :
    Going bytes (readChunk checks framesBefore bytes step cursor) ∧
      ((unread bytes (readChunk checks framesBefore bytes step cursor) = unread bytes cursor ∧
          (readChunk checks framesBefore bytes step cursor).scan = cursor.scan ∧
          (readChunk checks framesBefore bytes step cursor).complete = cursor.complete ∧
          (readChunk checks framesBefore bytes step cursor).newest = cursor.newest) ∨
        ∃ data, Visited checks framesBefore bytes cursor
          (readChunk checks framesBefore bytes step cursor) data) := by
  have hunread := @unread_eq bytes cursor (min step cursor.position)
    (Nat.min_le_right _ _)
  have hwithin : cursor.position - min step cursor.position ≤ bytes.length := by
    have := h.within
    omega
  have hdata : ∀ data, lastLine (unread bytes cursor) = lastLine data →
      cursor.newest = true ∨ lastLine data = [] := by
    intro data hlast
    cases hnewest : cursor.newest with
    | true => exact Or.inl rfl
    | false =>
      rw [← hlast]
      exact Or.inr (h.last_nil hnewest)
  unfold readChunk
  dsimp only
  generalize cursor.position - min step cursor.position = start at hunread hwithin ⊢
  generalize (bytes.drop start).take (min step cursor.position) ++ cursor.carry = data at hunread ⊢
  split
  · rename_i hstart
    subst hstart
    rw [List.take_zero, List.nil_append] at hunread
    rw [visitData_eq cursor data (hdata data (by rw [hunread]))]
    refine ⟨⟨Nat.zero_le _, fun _ => rfl, fun _ => Or.inl rfl⟩, Or.inr ⟨data, ?_⟩⟩
    refine ⟨rfl, rfl, rfl, ?_, by rw [hunread]⟩
    rw [hunread]
    exact (List.append_nil _).symm
  · rename_i hstart
    split
    · have hsame : unread bytes { cursor with position := start, carry := data } = unread bytes cursor :=
        hunread
      refine ⟨⟨hwithin, fun hzero => absurd hzero hstart, ?_⟩, Or.inl ⟨hsame, rfl, rfl, rfl⟩⟩
      rw [hsame]
      exact h.ended
    · rename_i index hindex
      obtain ⟨front, back, hcut, hdrop, htake⟩ := exists_cut_of_idxOf hindex
      have hlast : lastLine (unread bytes cursor) = lastLine back := by
        rw [← hunread, hcut, ← List.append_assoc, lastLine_append]
      rw [hdrop, htake, visitData_eq cursor back (hdata back hlast)]
      refine ⟨⟨hwithin, fun hzero => absurd hzero hstart, fun _ => Or.inr ⟨bytes.take start ++ front, ?_⟩⟩,
        Or.inr ⟨back, rfl, rfl, rfl, ?_, hlast⟩⟩
      · exact (List.append_assoc _ _ _).symm
      · rw [← hunread, hcut, ← List.append_assoc, newestFirst_append, List.append_assoc]
        rfl

/-! ### The loop -/

theorem readBack_stopped {bytes : List UInt8} {step : Nat} {cursor : Cursor}
    (h : Stopped framesBefore cursor.scan) : readBack checks framesBefore bytes step cursor = cursor := by
  unfold readBack
  rw [if_pos]
  rcases h with hmalformed | henough
  · exact Or.inl hmalformed
  · exact Or.inr (Or.inl henough)

theorem readBack_step {bytes : List UInt8} {step : Nat} {cursor : Cursor}
    (h : ¬Stopped framesBefore cursor.scan) (hmin : min step cursor.position ≠ 0) :
    readBack checks framesBefore bytes step cursor =
      readBack checks framesBefore bytes step (readChunk checks framesBefore bytes step cursor) := by
  conv_lhs => unfold readBack
  rw [if_neg]
  rintro (hmalformed | henough | hzero)
  · exact h (Or.inl hmalformed)
  · exact h (Or.inr henough)
  · exact hmin hzero

theorem readBack_done {bytes : List UInt8} {step : Nat} {cursor : Cursor} (h : cursor.position = 0) :
    readBack checks framesBefore bytes step cursor = cursor := by
  unfold readBack
  rw [if_pos]
  right
  right
  omega

/-- What the loop leaves: every unread record visited once, from the newest on. -/
theorem readBack_eq {bytes : List UInt8} {step : Nat} (hstep : 0 < step) {cursor : Cursor}
    (hgoing : Going bytes cursor) (h : ¬Stopped framesBefore cursor.scan) :
    (readBack checks framesBefore bytes step cursor).scan =
        visitLines checks framesBefore cursor.scan (newestFirst (unread bytes cursor)) ∧
      (readBack checks framesBefore bytes step cursor).complete =
        (cursor.complete && !(cursor.newest && decide (lastLine (unread bytes cursor) ≠ []))) := by
  induction hn : cursor.position using Nat.strongRecOn generalizing cursor with
  | ind n ih =>
    by_cases hzero : cursor.position = 0
    · have hnil : unread bytes cursor = [] := by
        rw [unread, hzero, hgoing.done hzero]
        rfl
      rw [readBack_done hzero, hnil]
      refine ⟨rfl, ?_⟩
      have hlast : lastLine [] = [] := rfl
      simp [hlast]
    · have hmin : min step cursor.position ≠ 0 := by omega
      have hless : (readChunk checks framesBefore bytes step cursor).position < n := by
        rw [position_readChunk]
        omega
      rw [readBack_step h hmin]
      obtain ⟨hnext, hpass⟩ :=
        @pass checks framesBefore bytes step cursor hgoing
      rcases hpass with ⟨hunread, hscan, hcomplete, hnewest⟩ | ⟨data, hvisited⟩
      · rw [← hscan] at h
        rw [← hunread, ← hscan, ← hcomplete, ← hnewest]
        exact ih _ hless hnext h rfl
      · rw [hvisited.order, hvisited.last]
        by_cases hstopped : Stopped framesBefore (visitLines checks framesBefore cursor.scan (newestFirst data))
        · rw [visitLines_stopped h _ _ hstopped, ← hvisited.scan, ← hvisited.complete]
          rw [← hvisited.scan] at hstopped
          rw [readBack_stopped hstopped]
          exact ⟨rfl, rfl⟩
        · rw [visitLines_goesOn h _ _ hstopped, ← hvisited.scan, ← hvisited.complete]
          rw [← hvisited.scan] at hstopped
          obtain ⟨hscan, hcomplete⟩ := ih _ hless hnext hstopped rfl
          refine ⟨hscan, ?_⟩
          rw [hcomplete, hvisited.newest, Bool.false_and, Bool.not_false, Bool.and_true]

/-- **The read in chunks answers as the visit of the file's records does, for every size of the
chunks, every bound on the older frames and every file.** -/
theorem readInSteps_eq (checks : EventChecks) (step framesBefore : Nat) (hstep : 0 < step)
    (observed : Observed) (file : Option (List UInt8)) :
    readInSteps checks step framesBefore observed file =
      scanHostTurnRecord checks framesBefore observed file := by
  cases file with
  | none => rfl
  | some bytes =>
      have hunread : unread bytes { position := bytes.length } = bytes := by
        rw [unread, List.take_length, List.append_nil]
      have hgoing : Going bytes { position := bytes.length } :=
        ⟨Nat.le_refl _, fun _ => rfl, fun hnewest => nomatch hnewest⟩
      have hfresh : ¬Stopped framesBefore ({} : Scan) := by
        rintro (hmalformed | henough)
        · exact hmalformed rfl
        · exact nomatch henough
      obtain ⟨hscan, hcomplete⟩ := @readBack_eq checks _ _ _ hstep _ hgoing hfresh
      unfold readInSteps scanHostTurnRecord
      dsimp only
      rw [hscan, hcomplete, hunread, newestFirst, List.map_reverse]
      simp only [Bool.true_and, ne_eq, decide_not, Bool.not_not]

/-- A ledger that stays on its path while it is read. -/
def settledLedger : Observed :=
  ⟨⟨1, 2, 40, 1000, 1000⟩, ⟨1, 2, 40, 1000, 1000⟩, some ⟨1, 2, 40, 1000, 1000⟩⟩

/-- A ledger with a torn last line, read in steps of one byte. -/
theorem readInSteps_eq_tornLedger :
    readInSteps plainChecks 1 0 settledLedger (some tornLedger) =
      scanHostTurnRecord plainChecks 0 settledLedger (some tornLedger) :=
  readInSteps_eq plainChecks 1 0 (by decide) settledLedger (some tornLedger)

end Delegatus.EventLedger
