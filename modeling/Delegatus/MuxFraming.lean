import Delegatus.JsonText

/-!
# Frames of the stream multiplexer

`createSseParser` and `push` read server-sent events out of a text that arrives in chunks,
`encodeMuxEvent` writes the event of a channel as one frame of the connection, and
`decodeMuxEvent` reads its data back. Strings are lists of code units.

`feed_flatten` says that the chunk boundaries do not matter, `push_encodeMuxEvent` what one
frame is read as, and `framing_round_trip` puts the two together.
-/

namespace Delegatus.MuxFraming

open JsonText

def LF : UInt16 := 10

def CR : UInt16 := 13

def COLON : UInt16 := 58

def SPACE : UInt16 := 32

structure SseEvent where
  event : Text
  data : Text
  id : Text
deriving DecidableEq

/-- What the closure of `createSseParser` keeps between two calls of `push`. -/
structure SseParser where
  buffer : Text
  event : Text
  data : List Text
  id : Text

def createSseParser (lastEventId : Text) : SseParser :=
  { buffer := [], event := [], data := [], id := lastEventId }

/-! ### Lines -/

/-- `text.indexOf(unit)`. -/
def indexOf (text : Text) (unit : UInt16) : Option Nat := text.findIdx? (· == unit)

/-- The first line of the buffer, its ending taken off, and what follows it. -/
def cutLine (buffer : Text) : Option (Text × Text) :=
  match indexOf buffer LF with
  | none => none
  | some stop =>
    -- at `stop = 0` the source reads the code unit at -1, which is no carriage return
    let line := if 0 < stop && buffer[stop - 1]? = some CR then buffer.take (stop - 1)
      else buffer.take stop
    some (line, buffer.drop (stop + 1))

/-- The field name and the value of a line. -/
def fieldOf (line : Text) : Text × Text :=
  match indexOf line COLON with
  | none => (line, [])
  | some colon =>
    let value := line.drop (colon + 1)
    (line.take colon, if value.head? = some SPACE then value.drop 1 else value)

/-- One turn of the loop of `push`. -/
def readLine (parser : SseParser) (line : Text) : SseParser × List SseEvent :=
  if line = [] then
    ({ parser with event := [], data := [] },
      if parser.data = [] then []
      else [{
        event := if parser.event = [] then units "message" else parser.event
        data := [LF].intercalate parser.data
        id := parser.id }])
  else if line.head? = some COLON then (parser, [])
  else
    let (field, value) := fieldOf line
    if field = units "data" then ({ parser with data := parser.data ++ [value] }, [])
    else if field = units "event" then ({ parser with event := value }, [])
    else if field = units "id" && !value.contains 0 then ({ parser with id := value }, [])
    else (parser, [])

theorem indexOf_append {unit : UInt16} (before after : Text) (h : unit ∉ before) :
    indexOf (before ++ unit :: after) unit = some before.length := by
  unfold indexOf
  induction before with
  | nil => simp [List.findIdx?_cons]
  | cons c before ih =>
    have hc : (c == unit) = false := by
      simpa using fun hcu : c = unit => h (hcu ▸ List.mem_cons_self)
    have htail := ih (fun hmem => h (List.mem_cons_of_mem _ hmem))
    rw [List.cons_append, List.findIdx?_cons, hc, htail]
    rfl

theorem indexOf_eq_none {unit : UInt16} {text : Text} (h : unit ∉ text) :
    indexOf text unit = none := by
  unfold indexOf
  rw [List.findIdx?_eq_none_iff]
  intro c hc
  simpa using fun hcu : c = unit => h (hcu ▸ hc)

/-- A line without its carriage return. -/
def stripCr (text : Text) : Text :=
  if 0 < text.length && text[text.length - 1]? = some CR then text.take (text.length - 1) else text

theorem stripCr_of_not_mem {line : Text} (h : CR ∉ line) : stripCr line = line := by
  unfold stripCr
  split
  · rename_i hlast
    simp only [Bool.and_eq_true, decide_eq_true_eq] at hlast
    exact absurd (List.mem_of_getElem? hlast.2) h
  · rfl

theorem cutLine_append (line rest : Text) (h : LF ∉ line) :
    cutLine (line ++ LF :: rest) = some (stripCr line, rest) := by
  unfold cutLine stripCr
  rw [indexOf_append line rest h]
  have hdrop : (line ++ LF :: rest).drop (line.length + 1) = rest := by
    rw [List.drop_append]
    simp
  simp only [hdrop, Option.some.injEq, Prod.mk.injEq, and_true]
  by_cases hpos : 0 < line.length
  · rw [List.getElem?_append_left (by omega), List.take_append_of_le_length (by omega),
      List.take_left]
  · simp [hpos]

theorem cutLine_eq_none {buffer : Text} (h : LF ∉ buffer) : cutLine buffer = none := by
  unfold cutLine
  rw [indexOf_eq_none h]

/-- Either no line is complete, or the first line break ends one. -/
theorem cutLine_cases (buffer : Text) :
    LF ∉ buffer ∧ cutLine buffer = none ∨
      ∃ line rest, LF ∉ line ∧ buffer = line ++ LF :: rest ∧
        cutLine buffer = some (stripCr line, rest) := by
  by_cases h : LF ∈ buffer
  · obtain ⟨line, rest, hbuffer, hline⟩ := List.eq_append_cons_of_mem h
    exact Or.inr ⟨line, rest, hline, hbuffer, hbuffer ▸ cutLine_append line rest hline⟩
  · exact Or.inl ⟨h, cutLine_eq_none h⟩

theorem cutLine_length {buffer line rest : Text} (h : cutLine buffer = some (line, rest)) :
    rest.length < buffer.length := by
  rcases cutLine_cases buffer with ⟨-, hnone⟩ | ⟨whole, tail, -, hbuffer, hsome⟩
  · rw [hnone] at h
    cases h
  · rw [hsome] at h
    cases h
    simp [hbuffer]
    omega

/-! ### The parser -/

/-- The loop of `push`: every complete line of the buffer is read. -/
def drain (parser : SseParser) : SseParser × List SseEvent :=
  match _h : cutLine parser.buffer with
  | none => (parser, [])
  | some (line, rest) =>
    let (next, emitted) := readLine parser line
    let (last, events) := drain { next with buffer := rest }
    (last, emitted ++ events)
termination_by parser.buffer.length
decreasing_by exact cutLine_length _h

def push (parser : SseParser) (text : Text) : SseParser × List SseEvent :=
  drain { parser with buffer := parser.buffer ++ text }

/-- The chunks in order, with every event that comes out. -/
def feed (parser : SseParser) : List Text → SseParser × List SseEvent
  | [] => (parser, [])
  | chunk :: chunks =>
    let (next, emitted) := push parser chunk
    let (last, events) := feed next chunks
    (last, emitted ++ events)

/-! ### Frames -/

/-- `"data: " + line`. -/
def dataLine (line : Text) : Text := units "data: " ++ line

def encodeMuxEvent (channel : Text) (event : SseEvent) : Text :=
  let lines := [LF].intercalate ((event.data.splitOn LF).map dataLine)
  units "event: e\ndata: " ++ stringifyStrings [channel, event.event, event.id] ++
    units "\n" ++ lines ++ units "\n\n"

/-- An event of a channel, as `decodeMuxEvent` gives it. -/
structure MuxEvent where
  channel : Text
  event : Text
  id : Text
  data : Text

def decodeMuxEvent (data : Text) : Option MuxEvent :=
  match indexOf data LF with
  | none => none
  | some cut =>
    match parse (data.take cut) with
    | some (.array (.string channel :: .string event :: .string id :: _)) =>
      some { channel, event, id, data := data.drop (cut + 1) }
    | _ => none

/-! ### Chunk boundaries do not matter -/

theorem drain_eq_none {parser : SseParser} (h : cutLine parser.buffer = none) :
    drain parser = (parser, []) := by
  rw [drain]
  split
  · rfl
  · rename_i hcut
    rw [h] at hcut
    cases hcut

theorem drain_eq_some (parser : SseParser) {line rest : Text}
    (h : cutLine parser.buffer = some (line, rest)) :
    drain parser =
      ((drain { (readLine parser line).1 with buffer := rest }).1,
        (readLine parser line).2 ++ (drain { (readLine parser line).1 with buffer := rest }).2) := by
  rw [drain]
  split
  · rename_i hcut
    rw [h] at hcut
    cases hcut
  · rename_i hcut
    rw [h] at hcut
    cases hcut
    rfl

/-- Reading a line looks at everything but the buffer. -/
theorem readLine_buffer (parser : SseParser) (buffer line : Text) :
    readLine { parser with buffer } line =
      ({ (readLine parser line).1 with buffer }, (readLine parser line).2) := by
  unfold readLine
  by_cases hblank : line = []
  · simp only [hblank, if_true]
  · by_cases hcomment : line.head? = some COLON
    · simp only [hblank, hcomment, if_true, if_false]
    · simp only [hblank, hcomment, if_false]
      generalize fieldOf line = named
      obtain ⟨field, value⟩ := named
      dsimp only
      split_ifs <;> rfl

/-- What is left in the buffer is no complete line. -/
theorem drain_drained (parser : SseParser) : LF ∉ (drain parser).1.buffer := by
  fun_induction drain parser with
  | case1 parser h =>
    rcases cutLine_cases parser.buffer with ⟨hnone, -⟩ | ⟨line, rest, -, -, hsome⟩
    · exact hnone
    · rw [hsome] at h
      cases h
  | case2 parser line rest h next emitted hline last events hdrain ih =>
    rw [hdrain] at ih
    exact ih

/-- More text after a drained one is read as if the two had come together. -/
theorem drain_append (parser : SseParser) (text : Text) :
    drain { parser with buffer := parser.buffer ++ text } =
      ((push (drain parser).1 text).1, (drain parser).2 ++ (push (drain parser).1 text).2) := by
  fun_induction drain parser with
  | case1 parser h => rfl
  | case2 parser line rest h next emitted hline last events hdrain ih =>
    rcases cutLine_cases parser.buffer with ⟨-, hnone⟩ | ⟨whole, tail, hwhole, hbuffer, hsome⟩
    · rw [hnone] at h
      cases h
    · rw [hsome] at h
      cases h
      have hcut : cutLine (parser.buffer ++ text) = some (stripCr whole, rest ++ text) := by
        rw [hbuffer, List.append_assoc, List.cons_append]
        exact cutLine_append whole (rest ++ text) hwhole
      rw [drain_eq_some { parser with buffer := parser.buffer ++ text } hcut, readLine_buffer,
        hline]
      rw [hdrain] at ih
      dsimp only at ih ⊢
      rw [ih, List.append_assoc]

theorem push_append (parser : SseParser) (first second : Text) :
    push parser (first ++ second) =
      ((push (push parser first).1 second).1,
        (push parser first).2 ++ (push (push parser first).1 second).2) := by
  unfold push
  rw [← List.append_assoc]
  exact drain_append { parser with buffer := parser.buffer ++ first } second

/-- However a text is cut into chunks, feeding them gives what pushing it whole gives. -/
theorem feed_flatten (chunks : List Text) {parser : SseParser} (h : LF ∉ parser.buffer) :
    feed parser chunks = push parser chunks.flatten := by
  induction chunks generalizing parser with
  | nil =>
    have hdrain := drain_eq_none (cutLine_eq_none h)
    simp [feed, push, hdrain]
  | cons chunk chunks ih =>
    have hnext : LF ∉ (push parser chunk).1.buffer := drain_drained _
    rw [List.flatten_cons, push_append, ← ih hnext]
    rfl

/-! ### What a frame is read as -/

/-- A complete line at the start of the text, with nothing kept from before it. -/
theorem push_line {parser : SseParser} {line : Text} (rest : Text) (hbuffer : parser.buffer = [])
    (hline : LF ∉ line) (hcr : CR ∉ line) :
    push parser (line ++ LF :: rest) =
      ((push (readLine parser line).1 rest).1,
        (readLine parser line).2 ++ (push (readLine parser line).1 rest).2) := by
  have hcut : cutLine (line ++ LF :: rest) = some (line, rest) := by
    rw [cutLine_append line rest hline, stripCr_of_not_mem hcr]
  have hkept : (readLine parser line).1.buffer = [] := by
    rw [← hbuffer]
    exact congrArg (fun result => result.1.buffer) (readLine_buffer parser parser.buffer line)
  have hdrain := drain_eq_some { parser with buffer := parser.buffer ++ (line ++ LF :: rest) }
    (by rw [hbuffer]; exact hcut)
  rw [readLine_buffer] at hdrain
  unfold push
  rw [hdrain, hkept]
  rfl

/-- The pieces of a split hold code units of the text, and none it was split at. -/
theorem mem_splitOn {unit c : UInt16} {text line : Text} (hline : line ∈ text.splitOn unit)
    (hc : c ∈ line) : c ∈ text ∧ c ≠ unit := by
  induction h : text.length using Nat.strongRecOn generalizing text with
  | _ n ih =>
    by_cases hmem : unit ∈ text
    · obtain ⟨before, after, htext, hbefore⟩ := List.eq_append_cons_of_mem hmem
      rw [htext, List.splitOn_append_cons_self_of_not_mem hbefore, List.mem_cons] at hline
      rcases hline with hline | hline
      · subst line
        have hunit : c ≠ unit := fun hcu => hbefore (hcu ▸ hc)
        exact ⟨htext ▸ List.mem_append_left _ hc, hunit⟩
      · have hshort : after.length < n := by
          rw [← h, htext, List.length_append, List.length_cons]
          omega
        obtain ⟨hafter, hunit⟩ := ih after.length hshort hline rfl
        exact ⟨htext ▸ List.mem_append_right _ (List.mem_cons_of_mem _ hafter), hunit⟩
    · rw [List.splitOn_eq_singleton hmem, List.mem_singleton] at hline
      subst line
      exact ⟨hc, fun hcu => hmem (hcu ▸ hc)⟩

/-- The value of a `data: ` line is what stands after the space. -/
theorem readLine_dataLine (parser : SseParser) (line : Text) :
    readLine parser (dataLine line) = ({ parser with data := parser.data ++ [line] }, []) := by
  have hcolon : indexOf (dataLine line) COLON = some 4 :=
    indexOf_append (units "data") (SPACE :: line) (by decide)
  have hline : dataLine line = 100 :: 97 :: 116 :: 97 :: COLON :: SPACE :: line := rfl
  have hfield : fieldOf (dataLine line) = (units "data", line) := by
    unfold fieldOf
    rw [hcolon, hline]
    rfl
  unfold readLine
  rw [hfield, hline]
  simp [COLON]

theorem dataLine_not_mem {unit : UInt16} {line : Text} (hunit : unit ∉ units "data: ")
    (hline : unit ∉ line) : unit ∉ dataLine line := by
  intro h
  rcases List.mem_append.mp h with h | h
  · exact hunit h
  · exact hline h

/-- Data lines add up until the blank line. -/
theorem push_dataLines (parser : SseParser) (lines : List Text) (rest : Text)
    (hbuffer : parser.buffer = []) (hlines : lines ≠ []) (hlf : ∀ line ∈ lines, LF ∉ line)
    (hcr : ∀ line ∈ lines, CR ∉ line) :
    push parser ([LF].intercalate (lines.map dataLine) ++ LF :: rest) =
      push { parser with data := parser.data ++ lines } rest := by
  induction lines generalizing parser with
  | nil => exact absurd rfl hlines
  | cons line lines ih =>
    have hline := dataLine_not_mem (by decide) (hlf line List.mem_cons_self)
    have hline' := dataLine_not_mem (by decide) (hcr line List.mem_cons_self)
    cases lines with
    | nil =>
      rw [List.map_cons, List.map_nil, List.intercalate_singleton, push_line rest hbuffer hline hline',
        readLine_dataLine]
      rfl
    | cons next lines =>
      have htail := ih { parser with data := parser.data ++ [line] } hbuffer (by simp)
        (fun l hl => hlf l (List.mem_cons_of_mem _ hl))
        (fun l hl => hcr l (List.mem_cons_of_mem _ hl))
      rw [List.map_cons, List.map_cons, List.intercalate_cons_cons, List.append_assoc,
        List.append_assoc, List.singleton_append]
      rw [push_line _ hbuffer hline hline', readLine_dataLine]
      rw [← List.map_cons, htail, List.append_assoc]
      rfl

/-- The event a frame comes out as. -/
def frameEvent (lastEventId channel : Text) (event : SseEvent) : SseEvent :=
  { event := units "e"
    data := stringifyStrings [channel, event.event, event.id] ++ LF :: event.data
    id := lastEventId }

theorem encodeMuxEvent_append (channel : Text) (event : SseEvent) (rest : Text) :
    encodeMuxEvent channel event ++ rest =
      units "event: e" ++ LF ::
        ([LF].intercalate ((stringifyStrings [channel, event.event, event.id] ::
          event.data.splitOn LF).map dataLine) ++ LF :: ([] ++ LF :: rest)) := by
  have hopen : units "event: e\ndata: " = units "event: e" ++ LF :: units "data: " := by decide
  have hbreak : units "\n" = [LF] := by decide
  have hclose : units "\n\n" = [LF, LF] := by decide
  have hlines : (event.data.splitOn LF).map dataLine ≠ [] := by simp
  unfold encodeMuxEvent
  rw [hopen, hbreak, hclose, List.map_cons, List.intercalate_cons_of_ne_nil hlines]
  simp [dataLine]

/-- One frame is one event, and the parser is as fresh after it as before. -/
theorem push_encodeMuxEvent (lastEventId channel : Text) (event : SseEvent) (rest : Text)
    (hcr : CR ∉ event.data) :
    push (createSseParser lastEventId) (encodeMuxEvent channel event ++ rest) =
      ((push (createSseParser lastEventId) rest).1,
        frameEvent lastEventId channel event :: (push (createSseParser lastEventId) rest).2) := by
  have hhead : ∀ unit : UInt16, unit < 32 →
      unit ∉ stringifyStrings [channel, event.event, event.id] := by
    intro unit hunit hmem
    exact stringifyStrings_printable _ unit hmem hunit
  have htype : readLine (createSseParser lastEventId) (units "event: e") =
      ({ createSseParser lastEventId with event := units "e" }, []) := by rfl
  have hdata := push_dataLines { createSseParser lastEventId with event := units "e" }
    (stringifyStrings [channel, event.event, event.id] :: event.data.splitOn LF)
    ([] ++ LF :: rest) rfl (List.cons_ne_nil _ _)
    (by
      intro line hline hmem
      rcases List.mem_cons.mp hline with rfl | hline
      · exact hhead LF (by decide) hmem
      · exact (mem_splitOn hline hmem).2 rfl)
    (by
      intro line hline hmem
      rcases List.mem_cons.mp hline with rfl | hline
      · exact hhead CR (by decide) hmem
      · exact hcr (mem_splitOn hline hmem).1)
  have hjoin : [LF].intercalate (stringifyStrings [channel, event.event, event.id] ::
      event.data.splitOn LF) =
        stringifyStrings [channel, event.event, event.id] ++ LF :: event.data := by
    rw [List.intercalate_cons_of_ne_nil (List.splitOn_ne_nil LF event.data),
      List.intercalate_splitOn]
    simp
  rw [encodeMuxEvent_append, push_line _ rfl (by decide) (by decide), htype, hdata,
    push_line rest rfl (by simp) (by simp)]
  simp [readLine, createSseParser, hjoin, frameEvent]
  decide

theorem push_frames (lastEventId : Text) (frames : List (Text × SseEvent))
    (hcr : ∀ frame ∈ frames, CR ∉ frame.2.data) :
    push (createSseParser lastEventId)
        (frames.map (fun frame => encodeMuxEvent frame.1 frame.2)).flatten =
      (createSseParser lastEventId,
        frames.map (fun frame => frameEvent lastEventId frame.1 frame.2)) := by
  induction frames with
  | nil => exact drain_eq_none rfl
  | cons frame frames ih =>
    have htail := ih (fun f hf => hcr f (List.mem_cons_of_mem _ hf))
    rw [List.map_cons, List.flatten_cons,
      push_encodeMuxEvent lastEventId _ _ _ (hcr frame List.mem_cons_self), htail]
    rfl

theorem decodeMuxEvent_frameEvent (lastEventId channel : Text) (event : SseEvent) :
    decodeMuxEvent (frameEvent lastEventId channel event).data =
      some { channel, event := event.event, id := event.id, data := event.data } := by
  have hhead : LF ∉ stringifyStrings [channel, event.event, event.id] := by
    intro hmem
    exact stringifyStrings_printable _ LF hmem (by decide)
  unfold decodeMuxEvent frameEvent
  rw [indexOf_append _ event.data hhead]
  dsimp only
  rw [List.take_left, parse_stringifyStrings]
  simp [List.drop_append]

/-- Whatever the channel, the type, the id and the data of every event are, and wherever the
    text of their frames is cut, the events come out as they went in. -/
theorem framing_round_trip (lastEventId : Text) (frames : List (Text × SseEvent))
    (hcr : ∀ frame ∈ frames, CR ∉ frame.2.data) (chunks : List Text)
    (hcut : chunks.flatten = (frames.map (fun frame => encodeMuxEvent frame.1 frame.2)).flatten) :
    (feed (createSseParser lastEventId) chunks).2.map (fun event => decodeMuxEvent event.data) =
      frames.map (fun frame => some {
        channel := frame.1, event := frame.2.event, id := frame.2.id, data := frame.2.data }) := by
  have hfresh : LF ∉ (createSseParser lastEventId).buffer := by simp [createSseParser]
  rw [feed_flatten chunks hfresh, hcut, push_frames lastEventId frames hcr, List.map_map]
  apply List.map_congr_left
  intro frame _
  exact decodeMuxEvent_frameEvent lastEventId frame.1 frame.2

/-- Two events, the second with an empty type and two lines, cut inside a field name. -/
theorem framing_round_trip_two :
    (feed (createSseParser []) [(encodeMuxEvent (units "a") ⟨units "open", units "x", []⟩ ++
        encodeMuxEvent (units "b") ⟨[], units "y\n", units "7"⟩).take 3,
      (encodeMuxEvent (units "a") ⟨units "open", units "x", []⟩ ++
        encodeMuxEvent (units "b") ⟨[], units "y\n", units "7"⟩).drop 3]).2.map
          (fun event => decodeMuxEvent event.data) =
      [some ⟨units "a", units "open", [], units "x"⟩,
        some ⟨units "b", [], units "7", units "y\n"⟩] :=
  framing_round_trip []
    [(units "a", ⟨units "open", units "x", []⟩), (units "b", ⟨[], units "y\n", units "7"⟩)]
    (by decide) _ (by simp)

end Delegatus.MuxFraming
