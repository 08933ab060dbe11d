import Delegatus.EventLedger

/-!
# The probe of the last record and the replay

`load` and `durableRuntimeEventTailSeq` agree on the last event of a ledger but for one kind of file:
one whose last line lacks its newline and is an event all the same.  `load` replays that
line, and the probe takes it for a torn write.
-/

namespace Delegatus.EventLedger

open JsonText (Text Json)
open Utf8Decoding (NEWLINE decode)

/-! ### Newlines from the end -/

theorem lastNewline_append (front back : List UInt8) :
    lastNewline (front ++ back) =
      match lastNewline back with
      | some index => some (front.length + index)
      | none => lastNewline front := by
  induction front with
  | nil =>
    rw [List.nil_append]
    cases lastNewline back with
    | none => rfl
    | some index => simp
  | cons byte front ih =>
    rw [List.cons_append, lastNewline, ih]
    cases lastNewline back with
    | none => rfl
    | some index =>
      dsimp only
      rw [List.length_cons]
      congr 1
      omega

theorem lastNewline_eq_none {bytes : List UInt8} (h : NEWLINE ∉ bytes) : lastNewline bytes = none := by
  induction bytes with
  | nil => rfl
  | cons byte bytes ih =>
    rw [List.mem_cons, not_or] at h
    rw [lastNewline, ih h.2]
    exact if_neg fun hbyte => h.1 hbyte.symm

theorem lastNewline_cut {front back : List UInt8} (h : NEWLINE ∉ back) :
    lastNewline (front ++ NEWLINE :: back) = some front.length := by
  rw [lastNewline_append, lastNewline, lastNewline_eq_none h]
  rfl

/-- The search in steps finds the last newline before the place. -/
theorem lastNewlineBefore_eq {bytes : List UInt8} {buffer position : Nat} (hbuffer : 0 < buffer)
    (hposition : position ≤ bytes.length) :
    lastNewlineBefore bytes buffer position = lastNewline (bytes.take position) := by
  induction position using Nat.strongRecOn with
  | ind position ih =>
    unfold lastNewlineBefore
    dsimp only
    split
    · rename_i hlength
      have hzero : position = 0 := by omega
      rw [hzero]
      rfl
    · rename_i hlength
      have hcut : bytes.take position = bytes.take (position - min buffer position) ++
          (bytes.drop (position - min buffer position)).take (min buffer position) := by
        rw [← List.take_add]
        congr 1
        omega
      have hstart : (bytes.take (position - min buffer position)).length =
          position - min buffer position := by
        rw [List.length_take]
        omega
      rw [hcut, lastNewline_append, hstart]
      cases lastNewline ((bytes.drop (position - min buffer position)).take (min buffer position)) with
      | none => exact ih _ (by omega) (by omega)
      | some index => rfl

theorem exists_last_newline {bytes : List UInt8} (h : NEWLINE ∈ bytes) :
    ∃ front last, bytes = front ++ NEWLINE :: last ∧ NEWLINE ∉ last := by
  obtain ⟨last, front, hcut, hlast⟩ := List.eq_append_cons_of_mem (List.mem_reverse.mpr h)
  refine ⟨front.reverse, last.reverse, ?_, fun hmem => hlast (List.mem_reverse.mp hmem)⟩
  have hreverse := congrArg List.reverse hcut
  rw [List.reverse_reverse, List.reverse_append, List.reverse_cons, List.append_assoc] at hreverse
  exact hreverse

/-- What follows the last newline. -/
def lastLine (bytes : List UInt8) : List UInt8 :=
  (bytes.splitOn NEWLINE).getLast (List.splitOn_ne_nil NEWLINE bytes)

theorem lastLine_of_not_mem {bytes : List UInt8} (h : NEWLINE ∉ bytes) : lastLine bytes = bytes := by
  unfold lastLine
  simp only [List.splitOn_eq_singleton h, List.getLast_singleton]

theorem splitOn_cut {front last : List UInt8} (h : NEWLINE ∉ last) :
    (front ++ NEWLINE :: last).splitOn NEWLINE = front.splitOn NEWLINE ++ [last] := by
  rw [List.splitOn_append_cons_self, List.splitOn_eq_singleton h]

theorem lastLine_cut {front last : List UInt8} (h : NEWLINE ∉ last) :
    lastLine (front ++ NEWLINE :: last) = last := by
  unfold lastLine
  simp only [splitOn_cut h, List.getLast_append_singleton]

/-- The record that the search from the end cuts out. -/
theorem cut_record {front last : List UInt8} {start : Nat}
    (hstart : start = afterNewline (lastNewline front)) :
    ((front ++ NEWLINE :: last).drop start).take (front.length - start) = lastLine front := by
  by_cases hmem : NEWLINE ∈ front
  · obtain ⟨before, record, rfl, hrecord⟩ := exists_last_newline hmem
    rw [lastNewline_cut hrecord] at hstart
    have hbytes : before ++ NEWLINE :: record ++ NEWLINE :: last =
        (before ++ [NEWLINE]) ++ (record ++ NEWLINE :: last) := by
      simp
    have hlength : (before ++ NEWLINE :: record).length - (before.length + 1) = record.length := by
      rw [List.length_append, List.length_cons]
      omega
    rw [lastLine_cut hrecord, hstart, afterNewline, hbytes, List.drop_left' (by simp), hlength, List.take_left' rfl]
  · rw [lastNewline_eq_none hmem] at hstart
    rw [lastLine_of_not_mem hmem, hstart, afterNewline]
    simp

/-! ### The replay of the lines -/

variable {checks : EventChecks}

theorem decode_nil : decode [] = [] := rfl

theorem readEvent_nil : readEvent checks [] = .error "runtime event ledger contains malformed JSON" :=
  rfl

theorem last_pushEvent {events out : List (RuntimeEvent checks)} {event : RuntimeEvent checks}
    (h : pushEvent checks events event = .ok out) : out.getLast? = some event := by
  unfold pushEvent at h
  split at h
  · rw [← Except.ok.inj h]
    exact List.getLast?_concat
  · split at h
    · exact nomatch h
    · rw [← Except.ok.inj h]
      exact List.getLast?_concat

theorem seq_pushEvent {events out : List (RuntimeEvent checks)} {previous event : RuntimeEvent checks}
    (hlast : events.getLast? = some previous) (h : pushEvent checks events event = .ok out) :
    event.seq = previous.seq + 1 := by
  unfold pushEvent at h
  rw [hlast] at h
  dsimp only at h
  split at h
  · exact nomatch h
  · rename_i hseq
    exact not_not.mp hseq

/-- All lines but the last are events, and the last of these is the last event before it. -/
theorem loadLines_concat {terminated : Bool} {events out : List (RuntimeEvent checks)}
    {lines : List Text} {last : Text}
    (h : loadLines checks terminated events (lines ++ [last]) = .ok out) :
    ∃ before, loadLines checks terminated before [last] = .ok out ∧ (lines = [] → before = events) ∧
      ∀ line, lines.getLast? = some line →
        ∃ event, readEvent checks line = .ok event ∧ before.getLast? = some event := by
  induction lines generalizing events with
  | nil => exact ⟨events, h, fun _ => rfl, fun line hline => nomatch hline⟩
  | cons line lines ih =>
    have hrest : lines ++ [last] ≠ [] := by simp
    rw [List.cons_append, loadLines, if_neg (fun hnil => hrest hnil.2.1)] at h
    split at h
    · exact nomatch h
    · split at h
      · rw [if_neg (fun hnil => hrest hnil.1)] at h
        exact nomatch h
      · rename_i event hevent
        split at h
        · exact nomatch h
        · rename_i next hnext
          obtain ⟨before, hbefore, hnil, hlines⟩ := ih h
          refine ⟨before, hbefore, (fun hcons => nomatch hcons), ?_⟩
          intro other hother
          cases lines with
          | nil =>
            rw [hnil rfl, ← Option.some.inj hother]
            exact ⟨event, hevent, last_pushEvent hnext⟩
          | cons second lines =>
            rw [List.getLast?_cons_cons] at hother
            exact hlines other hother

/-- The last line of a text that ends with its newline. -/
theorem loadLines_terminated {events out : List (RuntimeEvent checks)}
    (h : loadLines checks true events [[]] = .ok out) : out = events := by
  rw [loadLines, if_pos ⟨rfl, rfl, rfl⟩, loadLines] at h
  exact (Except.ok.inj h).symm

/-- The last line of a text that does not. -/
theorem loadLines_unterminated {events out : List (RuntimeEvent checks)} {last : Text}
    (h : loadLines checks false events [last] = .ok out) :
    (∃ event, readEvent checks last = .ok event ∧ pushEvent checks events event = .ok out) ∨
      (∀ event, readEvent checks last ≠ .ok event) ∧ out = events := by
  rw [loadLines, if_neg (fun hnil => nomatch hnil.2.2)] at h
  split at h
  · exact nomatch h
  · split at h
    · rename_i reason hreason
      rw [if_pos ⟨rfl, rfl⟩] at h
      rw [hreason]
      exact Or.inr ⟨fun _ hevent => (nomatch hevent), (Except.ok.inj h).symm⟩
    · rename_i event hevent
      split at h
      · exact nomatch h
      · rename_i next hnext
        rw [loadLines] at h
        rw [← Except.ok.inj h]
        exact Or.inl ⟨event, hevent, hnext⟩

/-! ### What the probe reads -/

theorem getLast_decode {front last : List UInt8} (h : NEWLINE ∉ last) :
    (decode (front ++ NEWLINE :: last)).getLast? = some 10 ↔ last = [] := by
  rw [Utf8Decoding.decode_newline, List.getLast?_append]
  constructor
  · intro hlast
    by_contra hne
    have hdecoded : decode last ≠ [] := fun hnil => hne (Utf8Decoding.decode_eq_nil.mp hnil)
    rw [List.getLast?_cons, List.getLast?_eq_some_getLast hdecoded] at hlast
    apply Utf8Decoding.newline_not_mem_decode h
    have hmem := List.getLast_mem hdecoded
    rw [← Option.some.inj hlast] at *
    exact hmem
  · intro hnil
    rw [hnil]
    rfl

/-- The sequence of the last event, zero when there is none. -/
def tailSeq (events : List (RuntimeEvent checks)) : Int := (events.getLast?.map RuntimeEvent.seq).getD 0

/-- The probe says nothing, or the sequence of the last event. -/
def Agrees (probe : Determinable Int) (events : List (RuntimeEvent checks)) : Prop :=
  match probe with
  | .determined seq => seq = tailSeq events
  | .undetermined _ => True

/-- The probe's answer for the record it cut out. -/
def probeRecord (checks : EventChecks) (record : List UInt8) : Determinable Int :=
  if record.length = 0 then .undetermined "the runtime event ledger ends with an empty record"
  else if EVENT_TAIL_MAX_RECORD_BYTES < record.length then
    .undetermined ("the runtime event ledger's final record is " ++ toString record.length ++ " bytes")
  else
    match JsonText.parse (decode record) with
    | none => .undetermined "the runtime event ledger's final record is not JSON"
    | some parsed =>
        match seqOf checks parsed with
        | some seq => .determined seq
        | none => .undetermined "the runtime event ledger's final record carries no sequence"

theorem probe_unbroken {bytes : List UInt8} (h : NEWLINE ∉ bytes) :
    durableRuntimeEventTailSeq checks (some bytes) = .determined 0 := by
  unfold durableRuntimeEventTailSeq
  dsimp only
  split
  · rfl
  · rename_i hsize
    have hstep : 0 < EVENT_TAIL_STEP_BYTES := by decide
    rw [lastNewlineBefore_eq (by omega) (Nat.le_refl _), List.take_length, lastNewline_eq_none h]

theorem probe_cut {front last : List UInt8} (h : NEWLINE ∉ last) :
    durableRuntimeEventTailSeq checks (some (front ++ NEWLINE :: last)) =
      probeRecord checks (lastLine front) := by
  have hstep : 0 < EVENT_TAIL_STEP_BYTES := by decide
  have hsize : (front ++ NEWLINE :: last).length ≠ 0 := by simp
  have hfront : (front ++ NEWLINE :: last).take front.length = front := List.take_left
  unfold durableRuntimeEventTailSeq
  dsimp only
  rw [if_neg hsize, lastNewlineBefore_eq (by omega) (Nat.le_refl _), List.take_length, lastNewline_cut h]
  dsimp only
  rw [lastNewlineBefore_eq (by omega) (by simp), hfront]
  generalize hstart : afterNewline (lastNewline front) = start
  have hrecord : ((front ++ NEWLINE :: last).drop start).take (front.length - start) = lastLine front :=
    cut_record hstart.symm
  have hlength : front.length - start = (lastLine front).length := by
    rw [← hrecord, List.length_take, List.length_drop, List.length_append]
    omega
  rw [hrecord, hlength]
  rfl

/-- An event is read off its record unless the record is too large. -/
theorem probeRecord_event {record : List UInt8} {event : RuntimeEvent checks}
    (h : readEvent checks (decode record) = .ok event) :
    ¬EVENT_TAIL_MAX_RECORD_BYTES < record.length ∧ probeRecord checks record = .determined event.seq ∨
      EVENT_TAIL_MAX_RECORD_BYTES < record.length ∧
        ∃ reason, probeRecord checks record = .undetermined reason := by
  have hlength : record.length ≠ 0 := by
    intro hzero
    rw [List.length_eq_zero_iff.mp hzero, decode_nil, readEvent_nil] at h
    exact nomatch h
  unfold probeRecord
  rw [if_neg hlength]
  split
  · rename_i hlarge
    exact Or.inr ⟨hlarge, _, rfl⟩
  · rename_i hlarge
    refine Or.inl ⟨hlarge, ?_⟩
    unfold readEvent at h
    cases hparsed : JsonText.parse (decode record) with
    | none =>
      rw [hparsed] at h
      exact nomatch h
    | some parsed =>
      rw [hparsed] at h
      dsimp only at h
      split at h
      · rw [← Except.ok.inj h]
        dsimp only
        rw [seqOf_event ⟨parsed, _⟩]
      · exact nomatch h

/-! ### The agreement -/

/-- The last line lacks its newline and is an event. -/
def UnterminatedEvent (checks : EventChecks) (bytes : List UInt8) : Prop :=
  ∃ event, readEvent checks (decode (lastLine bytes)) = .ok event

/-- The record that the last newline ends is larger than the probe reads. -/
def OversizedRecord (bytes : List UInt8) : Prop :=
  ∃ record, (bytes.splitOn NEWLINE).dropLast.getLast? = some record ∧
    EVENT_TAIL_MAX_RECORD_BYTES < record.length

theorem dropLast_splitOn_cut {front last : List UInt8} (h : NEWLINE ∉ last) :
    ((front ++ NEWLINE :: last).splitOn NEWLINE).dropLast.getLast? = some (lastLine front) := by
  rw [splitOn_cut h, List.dropLast_concat]
  exact List.getLast?_eq_some_getLast _

theorem oversized_cut {front last : List UInt8} (h : NEWLINE ∉ last) :
    OversizedRecord (front ++ NEWLINE :: last) ↔
      EVENT_TAIL_MAX_RECORD_BYTES < (lastLine front).length := by
  unfold OversizedRecord
  rw [dropLast_splitOn_cut h]
  constructor
  · rintro ⟨record, hrecord, hlarge⟩
    rw [Option.some.inj hrecord]
    exact hlarge
  · exact fun hlarge => ⟨_, rfl, hlarge⟩

theorem tailSeq_of_last {events : List (RuntimeEvent checks)} {event : RuntimeEvent checks}
    (h : events.getLast? = some event) : tailSeq events = event.seq := by
  rw [tailSeq, h]
  rfl

theorem agrees_unbroken {bytes : List UInt8} (hnone : NEWLINE ∉ bytes)
    {events : List (RuntimeEvent checks)} (h : load checks (some bytes) = .ok events) :
    Agrees (durableRuntimeEventTailSeq checks (some bytes)) events ↔ ¬UnterminatedEvent checks bytes := by
  have hdecoded := Utf8Decoding.newline_not_mem_decode hnone
  have hend : (decode bytes).getLast? ≠ some 10 := fun hlast => hdecoded (List.mem_of_getLast? hlast)
  unfold load at h
  dsimp only at h
  rw [decide_eq_false hend, List.splitOn_eq_singleton hdecoded] at h
  unfold UnterminatedEvent
  rw [probe_unbroken hnone, lastLine_of_not_mem hnone]
  rcases loadLines_unterminated h with ⟨event, hevent, hpush⟩ | ⟨hnot, hout⟩
  · constructor
    · intro hagrees
      have hzero : (0 : Int) = tailSeq events := hagrees
      rw [tailSeq_of_last (last_pushEvent hpush)] at hzero
      have hpos := seq_pos event
      omega
    · exact fun hnot => absurd ⟨event, hevent⟩ hnot
  · rw [hout]
    constructor
    · exact fun _ ⟨event, hevent⟩ => hnot event hevent
    · exact fun _ => rfl

theorem load_cut {front last : List UInt8} (hlast : NEWLINE ∉ last)
    {events : List (RuntimeEvent checks)} (h : load checks (some (front ++ NEWLINE :: last)) = .ok events) :
    ∃ before event, readEvent checks (decode (lastLine front)) = .ok event ∧
      before.getLast? = some event ∧
      loadLines checks (decide (last = [])) before [decode last] = .ok events := by
  unfold load at h
  dsimp only at h
  have hend : decide ((decode (front ++ NEWLINE :: last)).getLast? = some 10) = decide (last = []) := by
    rw [decide_eq_decide]
    exact getLast_decode hlast
  rw [hend, Utf8Decoding.decode_splitOn, splitOn_cut hlast, List.map_append, List.map_cons,
    List.map_nil] at h
  obtain ⟨before, hbefore, -, hlines⟩ := loadLines_concat h
  have hline : ((front.splitOn NEWLINE).map decode).getLast? = some (decode (lastLine front)) := by
    rw [List.getLast?_map, List.getLast?_eq_some_getLast (List.splitOn_ne_nil NEWLINE front)]
    rfl
  obtain ⟨event, hevent, hbeforeLast⟩ := hlines _ hline
  exact ⟨before, event, hevent, hbeforeLast, hbefore⟩

theorem not_oversized {bytes : List UInt8} (h : NEWLINE ∉ bytes) : ¬OversizedRecord bytes := by
  rintro ⟨record, hrecord, -⟩
  rw [List.splitOn_eq_singleton h] at hrecord
  exact nomatch hrecord

/-- The last event before the last line is the last of all unless that line is one. -/
theorem agrees_last {before events : List (RuntimeEvent checks)} {event : RuntimeEvent checks}
    {last : List UInt8} (hbefore : before.getLast? = some event)
    (h : loadLines checks (decide (last = [])) before [decode last] = .ok events) :
    Agrees (.determined event.seq) events ↔
      ¬∃ final, readEvent checks (decode last) = .ok final := by
  by_cases hnil : last = []
  · rw [decide_eq_true hnil, hnil, decode_nil] at h
    rw [hnil, decode_nil, loadLines_terminated h]
    constructor
    · exact fun _ ⟨final, hfinal⟩ => nomatch hfinal
    · exact fun _ => (tailSeq_of_last hbefore).symm
  · rw [decide_eq_false hnil] at h
    rcases loadLines_unterminated h with ⟨final, hfinal, hpush⟩ | ⟨hnot, hout⟩
    · constructor
      · intro hagrees
        have hsame : event.seq = tailSeq events := hagrees
        rw [tailSeq_of_last (last_pushEvent hpush), seq_pushEvent hbefore hpush] at hsame
        omega
      · exact fun hnot => absurd ⟨final, hfinal⟩ hnot
    · rw [hout]
      constructor
      · exact fun _ ⟨final, hfinal⟩ => hnot final hfinal
      · exact fun _ => (tailSeq_of_last hbefore).symm

/-- **The probe agrees with the replay but for an unterminated event.** -/
theorem agrees_iff (checks : EventChecks) (file : Option (List UInt8))
    (events : List (RuntimeEvent checks)) (h : load checks file = .ok events) :
    Agrees (durableRuntimeEventTailSeq checks file) events ↔
      ¬UnterminatedEvent checks (file.getD []) ∨ OversizedRecord (file.getD []) := by
  cases file with
  | none =>
      rw [← Except.ok.inj h]
      exact ⟨fun _ => Or.inl fun ⟨event, hevent⟩ => (nomatch hevent), fun _ => rfl⟩
  | some bytes =>
      dsimp only [Option.getD_some]
      by_cases hmem : NEWLINE ∈ bytes
      · obtain ⟨front, last, rfl, hlast⟩ := exists_last_newline hmem
        obtain ⟨before, event, hevent, hbefore, hload⟩ := load_cut hlast h
        rw [oversized_cut hlast, UnterminatedEvent, lastLine_cut hlast, probe_cut hlast]
        rcases probeRecord_event hevent with ⟨hsmall, hprobe⟩ | ⟨hlarge, reason, hprobe⟩
        · rw [hprobe, or_iff_left hsmall]
          exact agrees_last hbefore hload
        · rw [hprobe]
          exact ⟨fun _ => Or.inr hlarge, fun _ => trivial⟩
      · rw [agrees_unbroken hmem h, or_iff_left (not_oversized hmem)]

/-! ### Two ledgers -/

def digitsValue (literal : Text) : Option Int :=
  if literal.all JsonText.isDigit then
    some (literal.foldl (fun value digit => value * 10 + (digit.toNat - 48)) 0)
  else none

def plainChecks : EventChecks where
  safeInteger := digitsValue
  readyChunk _ _ := false
  validCodexRequestReceipt _ := true

def bytesOf (text : String) : List UInt8 := (JsonText.units text).map fun u => UInt8.ofNat u.toNat

def limitsLine : String := "\x7b\"seq\":1,\"kind\":\"limits\",\"snapshot\":null\x7d"

def limitsEvent : RuntimeEvent plainChecks :=
  ⟨.object [(JsonText.units "seq", .number (JsonText.units "1")),
    (JsonText.units "kind", .string (JsonText.units "limits")), (JsonText.units "snapshot", .null)],
    by decide +kernel⟩

/-- An event, and a write that a crash cut short. -/
def tornLedger : List UInt8 := bytesOf limitsLine ++ NEWLINE :: bytesOf "\x7b\"seq\":2,"

theorem eq_ok_of_values {result : Except String (List (RuntimeEvent checks))}
    {events : List (RuntimeEvent checks)}
    (h : result.toOption.map (List.map Subtype.val) = some (events.map Subtype.val)) :
    result = .ok events := by
  cases result with
  | error reason => exact nomatch h
  | ok read =>
    have hvalues := Option.some.inj h
    rw [List.map_injective_iff.mpr Subtype.val_injective hvalues]

theorem agrees_iff_tornLedger :
    Agrees (durableRuntimeEventTailSeq plainChecks (some tornLedger)) [limitsEvent] ↔
      ¬UnterminatedEvent plainChecks tornLedger ∨ OversizedRecord tornLedger :=
  agrees_iff plainChecks (some tornLedger) [limitsEvent]
    (eq_ok_of_values (by decide +kernel))

/-- One event without its newline. -/
theorem unterminated_disagrees :
    load plainChecks (some (bytesOf limitsLine)) = .ok [limitsEvent] ∧
      ¬Agrees (durableRuntimeEventTailSeq plainChecks (some (bytesOf limitsLine))) [limitsEvent] := by
  have hnone : NEWLINE ∉ bytesOf limitsLine := by decide +kernel
  refine ⟨eq_ok_of_values (by decide +kernel), ?_⟩
  rw [probe_unbroken hnone]
  intro hagrees
  have hzero : (0 : Int) = tailSeq [limitsEvent] := hagrees
  have hlast : [limitsEvent].getLast? = some limitsEvent := rfl
  rw [tailSeq_of_last hlast] at hzero
  have hpos := seq_pos limitsEvent
  omega

end Delegatus.EventLedger
