import Delegatus.FencedBlocks

/-!
# A report with one fenced verdict

A message whose prose has no fence line, followed by one fenced JSON verdict, has one block, and the
verdict of that block is the message's, unless it contradicts itself or the prose.
-/

namespace Delegatus.StageVerdicts

open JsonText UnitText

/-! ### Lines without fences -/

/-- The lines with a newline after each. -/
def ended (lines : List Text) : Text := lines.flatMap fun line => line ++ [10]

theorem length_ended_cons (line : Text) (lines : List Text) :
    (ended (line :: lines)).length = line.length + 1 + (ended lines).length := by
  rw [ended, List.flatMap_cons, List.length_append, List.length_append]
  rfl

theorem joinLines_append {front back : List Text} (h : back ≠ []) :
    joinLines (front ++ back) = ended front ++ joinLines back := by
  induction front with
  | nil => rfl
  | cons line front ih =>
    have hne : front ++ back ≠ [] := by simp [h]
    rw [List.cons_append, joinLines_cons line hne, ih]
    simp [ended]

theorem ended_eq {lines : List Text} (h : lines ≠ []) : ended lines = joinLines lines ++ [10] := by
  induction lines with
  | nil => exact absurd rfl h
  | cons line lines ih =>
    by_cases hnil : lines = []
    · rw [hnil]
      simp [ended, joinLines, List.intercalate]
    · rw [joinLines_cons line hnil]
      simp only [ended, List.flatMap_cons] at ih ⊢
      rw [ih hnil]
      simp

theorem scan_plain {text : Text} {front : List Text} (h : ∀ line ∈ front, fenceLine (dropCr line) = none)
    (lines : List Text) (fence : Option OpenFence) (offset lineNumber : Nat) :
    scanFences text (front ++ lines) fence offset lineNumber =
      scanFences text lines fence (offset + (ended front).length) (lineNumber + front.length) := by
  induction front generalizing offset lineNumber with
  | nil => rfl
  | cons line front ih =>
    have hline := h line List.mem_cons_self
    have hrest := fun other hother => h other (List.mem_cons_of_mem _ hother)
    have hstep : scanFences text (line :: (front ++ lines)) fence offset lineNumber =
        scanFences text (front ++ lines) fence (offset + line.length + 1) (lineNumber + 1) := by
      cases fence with
      | none => simp only [scanFences, hline]
      | some held => simp only [scanFences, hline]
    rw [List.cons_append, hstep, ih hrest, length_ended_cons, List.length_cons]
    congr 1
    · omega
    · omega

/-- A fence line starts with a tick. -/
theorem isTick_of_fenceToken {text token info : Text} (h : fenceToken text = some (token, info)) :
    ∃ u, text.head? = some u ∧ isTick u = true := by
  unfold fenceToken at h
  split at h
  · exact nomatch h
  · rename_i marker hmarker
    dsimp only at h
    split at h
    · rename_i hfence
      refine ⟨marker, hmarker, ?_⟩
      rw [Bool.and_eq_true, Bool.and_eq_true, Bool.or_eq_true, decide_eq_true_eq,
        decide_eq_true_eq] at hfence
      rcases hfence.1.1 with hmarker | hmarker
      · rw [hmarker]
        decide
      · rw [hmarker]
        decide
    · exact nomatch h

theorem head_dropCr {line : Text} {u : UInt16}
    (h : ((dropCr line).dropWhile (· = 32)).head? = some u) : (line.dropWhile (· = 32)).head? = some u := by
  unfold dropCr at h
  split at h
  · rename_i hcr
    obtain ⟨front, rfl⟩ := List.getLast?_eq_some_iff.mp hcr
    rw [List.dropLast_concat] at h
    rw [List.dropWhile_append]
    split
    · rename_i hempty
      rw [List.isEmpty_iff.mp hempty] at h
      exact nomatch h
    · rw [List.head?_append, h]
      rfl
  · exact h

/-- No line of a JSON text is a fence. -/
theorem fenceLine_of_json {payload line : Text} {raw : Json} (h : parse payload = some raw)
    (hline : line ∈ payload.splitOn 10) : fenceLine (dropCr line) = none := by
  cases hfence : fenceLine (dropCr line) with
  | none => rfl
  | some read =>
    obtain ⟨token, info⟩ := read
    unfold fenceLine at hfence
    split at hfence
    · obtain ⟨u, hhead, htick⟩ := isTick_of_fenceToken hfence
      have hplain := (quoted_of_parse h).line hline (head_dropCr hhead)
      exact nomatch htick.symm.trans hplain
    · exact nomatch hfence

/-! ### The report -/

/-- Lines of prose, a fence with its payload, and the lines after it. -/
structure Report where
  prose : List Text
  opening : Text
  payload : Text
  closing : Text
  after : List Text

def Report.lines (report : Report) : List Text :=
  report.prose ++ report.opening :: (report.payload.splitOn 10 ++ report.closing :: report.after)

def Report.text (report : Report) : Text := joinLines report.lines

structure Report.Fenced (report : Report) (token info : Text) : Prop where
  prose : ∀ line ∈ report.prose, (10 : UInt16) ∉ line ∧ fenceLine (dropCr line) = none
  opening : (10 : UInt16) ∉ report.opening ∧ Opens report.opening token info
  closing : (10 : UInt16) ∉ report.closing ∧ ClosesFence token report.closing
  after : ∀ line ∈ report.after, (10 : UInt16) ∉ line ∧ fenceLine (dropCr line) = none

theorem Report.Fenced.splitOn {report : Report} {token info : Text} (h : report.Fenced token info) :
    report.text.splitOn 10 = report.lines := by
  apply List.splitOn_intercalate
  · intro line hline
    unfold Report.lines at hline
    simp only [List.mem_append, List.mem_cons] at hline
    rcases hline with hline | rfl | hline | rfl | hline
    · exact (h.prose line hline).1
    · exact h.opening.1
    · exact (exists_around_line hline).1
    · exact h.closing.1
    · exact (h.after line hline).1
  · unfold Report.lines
    simp

/-- The text of a report, cut at its payload. -/
theorem Report.text_eq (report : Report) : report.text =
    ended report.prose ++ report.opening ++ [10] ++ report.payload ++
      10 :: joinLines (report.closing :: report.after) := by
  have hpayload : ended (report.payload.splitOn 10) = report.payload ++ [10] := by
    rw [ended_eq (List.splitOn_ne_nil 10 report.payload), joinLines, List.intercalate_splitOn]
  unfold Report.text Report.lines
  rw [joinLines_append (List.cons_ne_nil _ _), joinLines_cons report.opening (by simp),
    joinLines_append (List.cons_ne_nil _ _), hpayload]
  simp

/-- Where the payload starts. -/
def Report.payloadStart (report : Report) : Nat := (ended report.prose).length + report.opening.length + 1

/-- The one block of a report. -/
def Report.block (report : Report) : FencedBlock where
  index := (ended report.prose).length
  line := report.prose.length + 1
  payload := report.payload
  payloadStart := report.payloadStart
  payloadEnd := report.payloadStart + report.payload.length

theorem Report.payload_slice (report : Report) :
    (report.text.take (report.payloadStart + report.payload.length)).drop report.payloadStart =
      report.payload := by
  have hfront : (ended report.prose ++ report.opening ++ [10]).length = report.payloadStart := by
    rw [Report.payloadStart, List.length_append, List.length_append]
    rfl
  have hboth : (ended report.prose ++ report.opening ++ [10] ++ report.payload).length =
      report.payloadStart + report.payload.length := by
    rw [List.length_append, hfront]
  rw [report.text_eq, List.take_left' hboth, List.drop_left' hfront]

theorem Report.payloadStart_le (report : Report) : report.payloadStart ≤ report.text.length := by
  rw [report.text_eq, Report.payloadStart]
  simp only [List.length_append, List.length_cons, List.length_nil]
  omega

theorem Report.fencedBlocks {report : Report} {token info : Text} {raw : Json}
    (h : report.Fenced token info) (hraw : parse report.payload = some raw) :
    fencedBlocks report.text = [report.block] := by
  have hopens := h.opening.2
  obtain ⟨token', info', hclosing, hmarker, hlength, hinfo⟩ := h.closing.2.fence
  have hne := fenceLine_ne_nil hopens.fence
  have hnotInfo : ¬(decide (token.head? = some BACKTICK) && info.contains BACKTICK) = true := by
    rw [Bool.and_eq_true, decide_eq_true_eq, List.contains_iff_mem]
    exact hopens.info
  have hcloses : (decide (token'.head? = some (token.headD BACKTICK)) &&
      decide (token'.length ≥ token.length) && decide (trim info' = [])) = true := by
    rw [Bool.and_eq_true, Bool.and_eq_true, decide_eq_true_eq, decide_eq_true_eq, decide_eq_true_eq]
    exact ⟨⟨hmarker.trans (head_of_ne_nil hne), hlength⟩, hinfo⟩
  have hpayload : (ended (report.payload.splitOn 10)).length = report.payload.length + 1 := by
    rw [ended_eq (List.splitOn_ne_nil 10 report.payload), joinLines, List.intercalate_splitOn,
      List.length_append]
    rfl
  have hstart : min ((ended report.prose).length + report.opening.length + 1) report.text.length =
      report.payloadStart := Nat.min_eq_left report.payloadStart_le
  unfold StageVerdicts.fencedBlocks
  rw [h.splitOn, Report.lines, scan_plain (fun line hline => (h.prose line hline).2)]
  simp only [scanFences, hopens.fence, if_neg hnotInfo]
  rw [scan_plain (fun line hline => fenceLine_of_json hraw hline)]
  simp only [scanFences, hclosing, if_pos hcloses, Nat.zero_add]
  have hafter := @scan_plain report.text _ (fun line hline => (h.after line hline).2) [] none
  rw [List.append_nil] at hafter
  rw [hafter, hstart, hpayload]
  have hlater : (ended report.prose).length + report.opening.length + 1 + (report.payload.length + 1) >
      report.payloadStart := by
    rw [Report.payloadStart]
    omega
  have hend : (ended report.prose).length + report.opening.length + 1 + (report.payload.length + 1) - 1 =
      report.payloadStart + report.payload.length := by
    rw [Report.payloadStart]
    omega
  rw [if_pos hlater, hend, report.payload_slice]
  rfl

/-! ### Its verdict -/

/-- A pass with findings, or a verdict that a marker line of the prose contradicts. -/
def Contradicts (verdict : StageVerdict) (prose : Text) : Prop :=
  (verdict.status = .pass ∧ ∃ findings, verdict.findings = some findings ∧ findings ≠ []) ∨
    ∃ marker ∈ proseVerdictMarkers prose, PROSE_VERDICT_STATUSES marker ≠ verdict.status

/-- The prose as it is read for markers. -/
def Report.proseText (report : Report) : Text := trim (ended report.prose)

theorem parseStageVerdict_single {text : Text} {block : FencedBlock} {verdict : StageVerdict}
    (hblocks : fencedBlocks text = [block])
    (hverdict : blockVerdict block = .ok { index := block.index, verdict }) :
    finalVerdictCandidate text = .ok { index := block.index, verdict } := by
  have hcandidates : candidatesOf [block] = [{ index := block.index, verdict }] := by
    unfold candidatesOf
    rw [List.filterMap_cons, hverdict]
    rfl
  unfold finalVerdictCandidate
  dsimp only
  rw [hblocks]
  simp only [List.getLast?_singleton, hcandidates, List.any_cons, List.any_nil, ne_eq, not_true_eq_false,
    decide_false, Bool.or_false, Bool.false_eq_true, if_false]

theorem Report.parseStageVerdict {report : Report} {token info : Text} {raw : Json} {verdict : StageVerdict}
    (h : report.Fenced token info) (hraw : parse report.payload = some raw)
    (hverdict : completionVerdictFrom raw = some verdict) :
    (¬Contradicts verdict report.proseText → parseStageVerdict report.text =
        .parsed verdict (report.proseText.take MAX_OUTPUT_CHARS)) ∧
      (Contradicts verdict report.proseText → ∃ reason, parseStageVerdict report.text =
        .rejected reason (report.proseText.take MAX_OUTPUT_CHARS)) := by
  have hblock : blockVerdict report.block = .ok { index := report.block.index, verdict } := by
    unfold blockVerdict
    have hpayload : report.block.payload = report.payload := rfl
    rw [hpayload, hraw]
    dsimp only
    rw [hverdict]
  have hcandidate := parseStageVerdict_single (report.fencedBlocks h hraw) hblock
  have hprose : trim (report.text.take report.block.index) = report.proseText := by
    have hcut : report.text.take report.block.index = ended report.prose := by
      rw [report.text_eq, List.append_assoc, List.append_assoc, List.append_assoc]
      exact List.take_left' rfl
    rw [hcut]
    rfl
  unfold StageVerdicts.parseStageVerdict
  rw [hcandidate]
  dsimp only
  rw [hprose]
  split
  · rename_i hpass
    rw [Bool.and_eq_true, decide_eq_true_eq, Option.any_eq_true] at hpass
    obtain ⟨hstatus, findings, hfindings, hne⟩ := hpass
    have hcontradicts : Contradicts verdict report.proseText :=
      Or.inl ⟨hstatus, findings, hfindings, of_decide_eq_true hne⟩
    exact ⟨fun hnot => absurd hcontradicts hnot, fun _ => ⟨_, rfl⟩⟩
  · rename_i hpass
    split
    · rename_i marker hmarker
      have hdiffers := List.find?_some hmarker
      have hcontradicts : Contradicts verdict report.proseText :=
        Or.inr ⟨marker, List.mem_of_find?_eq_some hmarker, of_decide_eq_true hdiffers⟩
      exact ⟨fun hnot => absurd hcontradicts hnot, fun _ => ⟨_, rfl⟩⟩
    · rename_i hmarkers
      refine ⟨fun _ => rfl, ?_⟩
      rintro (⟨hstatus, findings, hfindings, hne⟩ | ⟨marker, hmarker, hdiffers⟩)
      · apply absurd _ hpass
        rw [Bool.and_eq_true, decide_eq_true_eq, Option.any_eq_true]
        exact ⟨hstatus, findings, hfindings, decide_eq_true hne⟩
      · exact absurd (decide_eq_true hdiffers) (List.find?_eq_none.mp hmarkers marker hmarker)

/-- **Fences are read as they stand.**  In every text the blocks come in order and apart, each where
its fences are; and a report with one fenced verdict is read as that verdict, or refused for what it
contradicts. -/
theorem fences_faithful :
    (∀ text, (∀ block ∈ fencedBlocks text, Faithful text block) ∧
      (fencedBlocks text).Pairwise fun a b => a.payloadEnd < b.index) ∧
    ∀ (report : Report) (token info : Text) (raw : Json) (verdict : StageVerdict),
      report.Fenced token info → parse report.payload = some raw →
      completionVerdictFrom raw = some verdict →
      (¬Contradicts verdict report.proseText → parseStageVerdict report.text =
        .parsed verdict (report.proseText.take MAX_OUTPUT_CHARS)) ∧
      (Contradicts verdict report.proseText → ∃ reason, parseStageVerdict report.text =
        .rejected reason (report.proseText.take MAX_OUTPUT_CHARS)) :=
  ⟨fun text => ⟨(found_fencedBlocks text).faithful, (found_fencedBlocks text).apart⟩,
    fun _ _ _ _ _ h hraw hverdict => Report.parseStageVerdict h hraw hverdict⟩

/-- A failed verdict after a line of prose. -/
def failedReport (prose : String) : Report where
  prose := [units prose]
  opening := units "```json"
  payload := units "\x7b\"status\":\"fail\"\x7d"
  closing := units "```"
  after := []

theorem failedReport_fenced (prose : String) (hnewline : (10 : UInt16) ∉ units prose)
    (hfence : fenceLine (dropCr (units prose)) = none) :
    (failedReport prose).Fenced (units "```") (units "json") := by
  have hopening : (10 : UInt16) ∉ units "```json" ∧
      fenceLine (dropCr (units "```json")) = some (units "```", units "json") ∧
      BACKTICK ∉ units "json" := by
    decide +kernel
  have hclosing : (10 : UInt16) ∉ units "```" ∧
      fenceLine (dropCr (units "```")) = some (units "```", []) ∧ trim [] = [] := by
    decide +kernel
  refine ⟨?_, ⟨hopening.1, hopening.2.1, fun h => hopening.2.2 h.2⟩,
    ⟨hclosing.1, ⟨units "```", [], hclosing.2.1, rfl, Nat.le_refl _, hclosing.2.2⟩⟩, fun _ hmem => nomatch hmem⟩
  intro line hline
  rw [List.mem_singleton.mp hline]
  exact ⟨hnewline, hfence⟩

theorem failedReport_parsed :
    parseStageVerdict (failedReport "Three tests fail.").text =
      .parsed { status := .fail } ((failedReport "Three tests fail.").proseText.take MAX_OUTPUT_CHARS) := by
  have hfenced := failedReport_fenced "Three tests fail." (by decide +kernel) (by decide +kernel)
  have hraw : (parse (failedReport "").payload).isSome = true := by decide +kernel
  obtain ⟨raw, hraw⟩ := Option.isSome_iff_exists.mp hraw
  have hverdict : (parse (failedReport "").payload).bind completionVerdictFrom = some { status := .fail } := by
    decide +kernel
  rw [hraw] at hverdict
  refine ((fences_faithful.2 _ _ _ raw _ hfenced hraw hverdict).1 ?_)
  rintro (⟨hstatus, -⟩ | ⟨marker, hmarker, -⟩)
  · exact nomatch hstatus
  · have hnone : proseVerdictMarkers (failedReport "Three tests fail.").proseText = [] := by decide +kernel
    rw [hnone] at hmarker
    exact nomatch hmarker

/-- A prose line that names another status has the report refused. -/
theorem approved_and_failed :
    (failedReport "VERDICT: APPROVE").Fenced (units "```") (units "json") ∧
      (parse (failedReport "VERDICT: APPROVE").payload).bind completionVerdictFrom =
        some { status := .fail } ∧
      ∀ verdict output, parseStageVerdict (failedReport "VERDICT: APPROVE").text ≠ .parsed verdict output := by
  refine ⟨failedReport_fenced "VERDICT: APPROVE" (by decide +kernel) (by decide +kernel),
    by decide +kernel, ?_⟩
  have hrejected : (match parseStageVerdict (failedReport "VERDICT: APPROVE").text with
      | .rejected _ _ => true
      | _ => false) = true := by
    decide +kernel
  intro verdict output hparsed
  rw [hparsed] at hrejected
  exact nomatch hrejected

end Delegatus.StageVerdicts
