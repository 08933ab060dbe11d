import Delegatus.StageCompletions

/-!
# The two channels of a verdict agree

`stageVerdictFrom_rendered` says what the shared normalizer makes of rendered findings. The call
and the fenced block both come down to it: the call renders its ranked findings, the block holds
them in any order that ranks to the same (`channels_agree`).
-/

namespace Delegatus.StageVerdicts

open JsonText UnitText

/-! ### Members of a record -/

theorem property_append (front back : Members) (key : String) :
    property (front ++ back) key = (property back key).or (property front key) := by
  unfold property
  rw [List.reverse_append, List.find?_append, Option.map_or]

theorem property_member (key other : String) (value : Option Json) :
    property (member other value) key = if units other = units key then value else none := by
  cases value with
  | none => simp [property, member]
  | some value =>
    by_cases hkey : units other = units key
    · simp [property, member, hkey]
    · simp [property, member, hkey]

/-- A record made of one member a key. -/
theorem property_flatMap (keys : List String) (value : String → Option Json) (key : String)
    (hkeys : ∀ other ∈ keys, units other = units key → other = key) :
    property (keys.flatMap (fun key => member key (value key))) key =
      if key ∈ keys then value key else none := by
  induction keys with
  | nil => rfl
  | cons other keys ih =>
    have hrest := ih (fun other hother => hkeys other (List.mem_cons_of_mem _ hother))
    rw [List.flatMap_cons, property_append, property_member, hrest]
    by_cases hsame : units other = units key
    · have hother : other = key := hkeys other List.mem_cons_self hsame
      subst hother
      simp
      split
      · simp
      · simp
    · have hne : ¬key = other := fun h => hsame (by rw [h])
      simp [hsame, hne]

theorem keys_of_flatMap {keys : List String} {value : String → Option Json}
    {entry : Text × Json} (h : entry ∈ keys.flatMap (fun key => member key (value key))) :
    ∃ key ∈ keys, entry.1 = units key := by
  obtain ⟨key, hkey, hentry⟩ := List.mem_flatMap.mp h
  refine ⟨key, hkey, ?_⟩
  cases hvalue : value key with
  | none => simp [member, hvalue] at hentry
  | some value => simp [member, hvalue] at hentry; rw [hentry]

/-! ### Rendered findings -/

/-- Findings that a call may render and a record may hold. -/
structure Renderable (findings : List StageFinding) : Prop where
  written : ∀ finding ∈ findings, Written finding
  short : ∀ finding ∈ findings, (stageFindingText finding).length ≤ MAX_FINDING_CHARS
  few : findings.length ≤ MAX_FINDINGS

theorem Renderable.of_perm {a b : List StageFinding} (h : Renderable a) (hperm : b.Perm a) :
    Renderable b :=
  ⟨fun finding hmem => h.written finding (hperm.mem_iff.mp hmem),
    fun finding hmem => h.short finding (hperm.mem_iff.mp hmem), hperm.length_eq ▸ h.few⟩

/-- A rendered finding is not a bare severity. -/
theorem not_bare {finding : StageFinding} (h : Written finding) :
    (STAGE_FINDING_SEVERITIES.map StageFindingSeverity.text).contains
      (stageFindingText finding) = false := by
  obtain ⟨severity, text⟩ := finding
  cases severity with
  | none => exact absurd rfl h.severity
  | some severity =>
    have hlong : 2 < (stageFindingText { severity := some severity, text }).length := by
      have hdash : (units " — ").length = 3 := by decide
      simp only [stageFindingText, List.length_append, hdash]
      omega
    have hshort : ∀ bare ∈ STAGE_FINDING_SEVERITIES.map StageFindingSeverity.text,
        bare.length = 2 := by decide
    rw [List.contains_eq_mem, decide_eq_false_iff_not]
    intro hmem
    have hlength := hshort _ hmem
    omega

theorem findingFrom_rendered {finding : StageFinding} (h : Written finding)
    (hshort : (stageFindingText finding).length ≤ MAX_FINDING_CHARS) :
    findingFrom false (.string (stageFindingText finding)) = some finding := by
  have htrim : trim (stageFindingText finding) = stageFindingText finding :=
    trim_eq_self (trimmed_stageFindingText h)
  have hne : stageFindingText finding ≠ [] := by
    intro hnil
    have hread := stageFindingFromText_text h
    rw [hnil] at hread
    have hseverity := h.severity
    rw [← hread] at hseverity
    exact hseverity rfl
  unfold findingFrom
  dsimp only
  rw [htrim, not_bare h, stageFindingFromText_text h]
  simp [hne, Nat.not_lt.mpr hshort]

theorem mapM_findingFrom {findings : List StageFinding} (h : ∀ finding ∈ findings, Written finding)
    (hshort : ∀ finding ∈ findings, (stageFindingText finding).length ≤ MAX_FINDING_CHARS) :
    (findings.map (fun finding => Json.string (stageFindingText finding))).mapM
      (findingFrom false) = some findings := by
  induction findings with
  | nil => rfl
  | cons finding findings ih =>
    have hfirst := findingFrom_rendered (h finding List.mem_cons_self)
      (hshort finding List.mem_cons_self)
    have hrest := ih (fun other hother => h other (List.mem_cons_of_mem _ hother))
      (fun other hother => hshort other (List.mem_cons_of_mem _ hother))
    rw [List.map_cons, List.mapM_cons, hfirst, hrest]
    rfl

/-- The member that a record holds for findings. -/
def renderedMember (findings : List StageFinding) : Option Json :=
  if findings = [] then none
  else some (.array (findings.map (fun finding => Json.string (stageFindingText finding))))

theorem findingsFrom_rendered {findings : List StageFinding} (h : Renderable findings) :
    findingsFrom false (renderedMember findings) =
      some (if findings = [] then none else some (rankStageFindings findings)) := by
  unfold renderedMember
  by_cases hnil : findings = []
  · rw [if_pos hnil, if_pos hnil]
    rfl
  · have hlong : (rankStageFindings findings).any
        (fun finding => decide ((stageFindingText finding).length > MAX_FINDING_CHARS)) = false := by
      rw [List.any_eq_false]
      intro finding hmem
      have hshort := h.short finding ((rankStageFindings_perm findings).mem_iff.mp hmem)
      simpa using hshort
    rw [if_neg hnil, if_neg hnil]
    unfold findingsFrom
    dsimp only
    rw [List.length_map, if_neg (Nat.not_lt.mpr h.few), mapM_findingFrom h.written h.short]
    dsimp only
    rw [hlong]
    rfl

/-- The verdict that the shared normalizer makes of rendered findings: their order matters only
    through their ranking. -/
def renderedVerdict (status blocked blockedReason : Option Json) (findings : List StageFinding) :
    Option StageVerdict := do
  let status ← statusFrom status
  let blocked ← blockedFrom blocked
  let blockedReason ← blockedReasonFrom status blocked blockedReason
  let ranked := if findings = [] then none else some (rankStageFindings findings)
  return {
    status, blocked, blockedReason
    findings := ranked.map (·.map stageFindingText)
    rankedFindings := ranked }

theorem stageVerdictFrom_rendered {members : Members} {findings : List StageFinding}
    (hallowed : ∀ entry ∈ members, ALLOWED_KEYS.contains entry.1 = true)
    (h : Renderable findings) (hfindings : property members "findings" = renderedMember findings)
    (hconfidence : property members "confidence" = none) :
    stageVerdictFrom (.object members) false =
      renderedVerdict (property members "status") (property members "blocked")
        (property members "blockedReason") findings := by
  have hkeys : members.any (fun entry => !ALLOWED_KEYS.contains entry.1) = false := by
    rw [List.any_eq_false]
    intro entry hentry
    rw [hallowed entry hentry]
    decide
  have hranked : (if findings = [] then none else some (rankStageFindings findings)).filter
      (fun ranked => ranked.any (fun finding => !decide (finding.severity = none))) =
      if findings = [] then none else some (rankStageFindings findings) := by
    by_cases hnil : findings = []
    · simp [hnil]
    · obtain ⟨finding, hmem⟩ := List.exists_mem_of_ne_nil findings hnil
      have hsome : (rankStageFindings findings).any
          (fun finding => !decide (finding.severity = none)) = true := by
        rw [List.any_eq_true]
        exact ⟨finding, (rankStageFindings_perm findings).mem_iff.mpr hmem,
          by simpa using (h.written finding hmem).severity⟩
      rw [if_neg hnil, Option.filter_some, if_pos hsome]
  unfold stageVerdictFrom renderedVerdict
  dsimp only
  rw [hkeys, hfindings, hconfidence, findingsFrom_rendered h]
  simp [confidenceFrom, hranked]

/-! ### The call -/

/-- A submitted finding with its text trimmed. -/
def submittedFinding : Json → StageFinding
  | .object finding =>
    { severity := severityFrom (property finding "severity")
      text := trimmedFrom (property finding "text") }
  | _ => { severity := none, text := [] }

/-- The findings that a call submits, in its order. -/
def submittedFindings : Option Json → List StageFinding
  | some (.array raw) => raw.map submittedFinding
  | _ => []

theorem trimmed_trimmedFrom (value : Option Json) : Trimmed (trimmedFrom value) := by
  unfold trimmedFrom
  split
  · exact trimmed_trim _
  · constructor <;> simp

theorem callFinding_ok {raw : Json} {finding : StageFinding} (h : callFinding raw = .ok finding) :
    finding = submittedFinding raw ∧ Written finding ∧
      (stageFindingText finding).length ≤ MAX_FINDING_CHARS := by
  unfold callFinding at h
  split at h
  · rename_i members
    split at h
    · cases h
    · rename_i severity hseverity
      dsimp only at h
      split_ifs at h with hnil hlong
      cases h
      have hsame : submittedFinding (.object members) =
          { severity := some severity, text := trimmedFrom (property members "text") } := by
        simp only [submittedFinding, hseverity]
      refine ⟨hsame.symm, ⟨by simp, hnil, trimmed_trimmedFrom _⟩, by omega⟩
  · cases h

theorem mapM_callFinding {raw : List Json} {findings : List StageFinding}
    (h : raw.mapM callFinding = .ok findings) :
    findings = raw.map submittedFinding ∧ ∀ finding ∈ findings, Written finding ∧
      (stageFindingText finding).length ≤ MAX_FINDING_CHARS := by
  induction raw generalizing findings with
  | nil =>
    cases h
    exact ⟨rfl, by simp⟩
  | cons first raw ih =>
    rw [List.mapM_cons] at h
    cases hfirst : callFinding first with
    | error refused =>
      rw [hfirst] at h
      cases h
    | ok finding =>
      cases hrest : raw.mapM callFinding with
      | error refused =>
        rw [hfirst, hrest] at h
        cases h
      | ok rest =>
        rw [hfirst, hrest] at h
        cases h
        obtain ⟨heq, hwritten⟩ := callFinding_ok hfirst
        obtain ⟨hresteq, hrestwritten⟩ := ih hrest
        refine ⟨by rw [List.map_cons, ← heq, ← hresteq], ?_⟩
        intro other hother
        rcases List.mem_cons.mp hother with rfl | hmem
        · exact hwritten
        · exact hrestwritten other hmem

theorem callFindings_ok {value : Option Json} {findings : List StageFinding}
    (h : callFindings value = .ok findings) :
    findings = submittedFindings value ∧ Renderable findings := by
  have hempty : Renderable [] := by constructor <;> simp
  unfold callFindings at h
  split at h
  · cases h
    exact ⟨rfl, hempty⟩
  · cases h
    exact ⟨rfl, hempty⟩
  · rename_i raw
    split_ifs at h with hmany
    obtain ⟨heq, hwritten⟩ := mapM_callFinding h
    refine ⟨heq, fun finding hmem => (hwritten finding hmem).1,
      fun finding hmem => (hwritten finding hmem).2, ?_⟩
    rw [heq, List.length_map]
    omega
  · cases h

/-- What an accepted call was made of. -/
theorem normalizeStageCompletion_ok {input : StageCompletionInput}
    {normalized : NormalizedStageCompletion} (h : normalizeStageCompletion input = .ok normalized) :
    ∃ status, statusFrom input.verdict = some status ∧
      Renderable (submittedFindings input.findings) ∧
      (status = .pass → submittedFindings input.findings = []) ∧
      stageVerdictFrom (callRecord status (submittedFindings input.findings) input.blocked
        input.blockedReason) false = some normalized.verdict := by
  unfold normalizeStageCompletion at h
  split at h
  · cases h
  · rename_i status hstatus
    refine ⟨status, hstatus, ?_⟩
    split at h
    · cases h
    · rename_i findings hfindings
      obtain ⟨heq, hrenderable⟩ := callFindings_ok hfindings
      split_ifs at h with hcontradictory
      rw [← heq]
      refine ⟨hrenderable, ?_, ?_⟩
      · intro hpass
        simpa [hpass] using hcontradictory
      · split at h
        · cases h
        · rename_i verdict hverdict
          rw [hverdict]
          cases htexts : callTexts input with
          | error refused =>
            rw [htexts] at h
            cases h
          | ok texts =>
            rw [htexts] at h
            cases h
            rfl

/-- The record of the call, one member a key. -/
def callValue (status : StageVerdictStatus) (findings : List StageFinding)
    (blocked blockedReason : Option Json) (key : String) : Option Json :=
  if key = "status" then some (.string (units status.text))
  else if key = "findings" then renderedMember (rankStageFindings findings)
  else if key = "blocked" then blocked
  else blockedReason

def CALL_KEYS : List String := ["status", "findings", "blocked", "blockedReason"]

theorem callRecord_eq (status : StageVerdictStatus) (findings : List StageFinding)
    (blocked blockedReason : Option Json) :
    callRecord status findings blocked blockedReason =
      .object (CALL_KEYS.flatMap (fun key =>
        member key (callValue status findings blocked blockedReason key))) := by
  have hfindings : (if (rankStageFindings findings).map stageFindingText = [] then []
      else [(units "findings",
        Json.array (((rankStageFindings findings).map stageFindingText).map Json.string))]) =
      member "findings" (renderedMember (rankStageFindings findings)) := by
    unfold renderedMember
    by_cases hnil : rankStageFindings findings = []
    · simp [hnil, member]
    · simp [hnil, member]
  unfold callRecord
  dsimp only
  rw [hfindings]
  simp [CALL_KEYS, callValue, member]

/-- What the call's record reads as. -/
theorem stageVerdictFrom_callRecord {status : StageVerdictStatus} {findings : List StageFinding}
    (h : Renderable findings) (blocked blockedReason : Option Json) :
    stageVerdictFrom (callRecord status findings blocked blockedReason) false =
      renderedVerdict (some (.string (units status.text))) blocked blockedReason
        (rankStageFindings findings) := by
  have hranked := h.of_perm (rankStageFindings_perm findings)
  rw [callRecord_eq, @stageVerdictFrom_rendered _ (rankStageFindings findings)]
  · rw [property_flatMap _ _ "status" fun _ _ h => units_injective h,
      property_flatMap _ _ "blocked" fun _ _ h => units_injective h,
      property_flatMap _ _ "blockedReason" fun _ _ h => units_injective h]
    rfl
  · intro entry hentry
    obtain ⟨key, hkey, hunits⟩ := keys_of_flatMap hentry
    have hall : CALL_KEYS ⊆ ["status", "findings", "rankedFindings", "confidence", "blocked", "blockedReason"] := by
      decide
    rw [hunits]
    exact List.contains_iff_mem.mpr (List.mem_map_of_mem (hall hkey))
  · exact hranked
  · rw [property_flatMap _ _ "findings" fun _ _ h => units_injective h]
    rfl
  · rw [property_flatMap _ _ "confidence" fun _ _ h => units_injective h]
    rfl

/-! ### The message -/

/-- A fenced record with the call's status, findings and blocked fields. Its findings may stand
    in any order that ranks to the same. -/
structure SameRecord (input : StageCompletionInput) (members : Members) : Prop where
  status : property members "status" = input.verdict
  findings : ∃ order, rankStageFindings order =
      rankStageFindings (submittedFindings input.findings) ∧
    property members "findings" = renderedMember order
  blocked : property members "blocked" = input.blocked
  blockedReason : property members "blockedReason" = input.blockedReason
  confidence : property members "confidence" = none

theorem completionVerdictFrom_rendered {members : Members} {findings : List StageFinding}
    (h : Renderable findings) (hfindings : property members "findings" = renderedMember findings)
    (hconfidence : property members "confidence" = none) :
    completionVerdictFrom (.object members) =
      renderedVerdict (property members "status") (property members "blocked")
        (property members "blockedReason") findings := by
  unfold completionVerdictFrom
  dsimp only
  rw [@stageVerdictFrom_rendered _ findings]
  · rw [property_flatMap _ _ "status" fun _ _ h => units_injective h,
      property_flatMap _ _ "blocked" fun _ _ h => units_injective h,
      property_flatMap _ _ "blockedReason" fun _ _ h => units_injective h]
    rfl
  · intro entry hentry
    obtain ⟨key, hkey, hunits⟩ := keys_of_flatMap hentry
    have hall : ["status", "findings", "confidence", "blocked", "blockedReason"] ⊆
        ["status", "findings", "rankedFindings", "confidence", "blocked", "blockedReason"] := by
      decide
    rw [hunits]
    exact List.contains_iff_mem.mpr (List.mem_map_of_mem (hall hkey))
  · exact h
  · rw [property_flatMap _ _ "findings" fun _ _ h => units_injective h]
    exact hfindings
  · rw [property_flatMap _ _ "confidence" fun _ _ h => units_injective h]
    exact hconfidence

/-- Only the ranking of the findings is left in the verdict. -/
theorem renderedVerdict_congr {status blocked blockedReason : Option Json}
    {a b : List StageFinding} (h : rankStageFindings a = rankStageFindings b) :
    renderedVerdict status blocked blockedReason a =
      renderedVerdict status blocked blockedReason b := by
  have hnil : a = [] ↔ b = [] := by
    have ha := (rankStageFindings_perm a).length_eq
    have hb := (rankStageFindings_perm b).length_eq
    rw [← List.length_eq_zero_iff, ← List.length_eq_zero_iff, ← ha, ← hb, h]
  unfold renderedVerdict
  simp only [h, hnil]

theorem statusFrom_text {value : Option Json} {status : StageVerdictStatus}
    (h : statusFrom value = some status) :
    statusFrom (some (.string (units status.text))) = statusFrom value := by
  rw [h]
  cases status <;> decide

theorem renderedVerdict_status {a b blocked blockedReason : Option Json}
    {findings : List StageFinding} (h : statusFrom a = statusFrom b) :
    renderedVerdict a blocked blockedReason findings =
      renderedVerdict b blocked blockedReason findings := by
  unfold renderedVerdict
  rw [h]

/-- The verdict of an accepted call. -/
theorem verdict_of_call {input : StageCompletionInput} {normalized : NormalizedStageCompletion}
    (h : normalizeStageCompletion input = .ok normalized) :
    Renderable (submittedFindings input.findings) ∧
      (normalized.verdict.status = .pass → submittedFindings input.findings = []) ∧
      renderedVerdict input.verdict input.blocked input.blockedReason
        (submittedFindings input.findings) = some normalized.verdict := by
  obtain ⟨status, hstatus, hrenderable, hpass, hverdict⟩ := normalizeStageCompletion_ok h
  rw [stageVerdictFrom_callRecord hrenderable,
    renderedVerdict_congr (rankStageFindings_rank (submittedFindings input.findings)),
    renderedVerdict_status (statusFrom_text hstatus)] at hverdict
  refine ⟨hrenderable, ?_, hverdict⟩
  intro hsame
  apply hpass
  unfold renderedVerdict at hverdict
  rw [hstatus] at hverdict
  simp only [Option.bind_eq_bind, Option.bind_some, Option.bind_eq_some_iff] at hverdict
  obtain ⟨blocked, -, reason, -, heq⟩ := hverdict
  rw [← Option.some.inj heq] at hsame
  exact hsame

/-- The ranked findings of a rendered verdict. -/
theorem rankedFindings_of_rendered {status blocked blockedReason : Option Json}
    {findings : List StageFinding} {verdict : StageVerdict}
    (h : renderedVerdict status blocked blockedReason findings = some verdict) :
    verdict.rankedFindings =
        (if findings = [] then none else some (rankStageFindings findings)) ∧
      verdict.findings =
        (if findings = [] then none
        else some ((rankStageFindings findings).map stageFindingText)) := by
  unfold renderedVerdict at h
  simp only [Option.bind_eq_bind, Option.bind_eq_some_iff] at h
  obtain ⟨status, -, blocked, -, reason, -, heq⟩ := h
  cases heq
  refine ⟨rfl, ?_⟩
  dsimp only
  split <;> rfl

theorem parseStageVerdict_of_last {text : Text} {front : List FencedBlock} {block : FencedBlock}
    {verdict : StageVerdict} (hblocks : fencedBlocks text = front ++ [block])
    (hverdict : blockVerdict block = .ok { index := block.index, verdict })
    (hfront : ∀ earlier ∈ front, ∀ candidate, blockVerdict earlier = .ok candidate →
      candidate.verdict.status = verdict.status)
    (hmarkers : ∀ marker ∈ proseVerdictMarkers (trim (text.take block.index)),
      PROSE_VERDICT_STATUSES marker = verdict.status)
    (hpass : verdict.status = .pass → verdict.findings = none) :
    parseStageVerdict text =
      .parsed verdict ((trim (text.take block.index)).take MAX_OUTPUT_CHARS) := by
  have hcandidates : candidatesOf (front ++ [block]) =
      candidatesOf front ++ [{ index := block.index, verdict }] := by
    unfold candidatesOf
    rw [List.filterMap_append]
    simp [hverdict, Except.toOption]
  have hagree : (candidatesOf (front ++ [block])).any
      (fun other => decide (other.verdict.status ≠ verdict.status)) = false := by
    rw [hcandidates, List.any_eq_false]
    intro candidate hmem
    rcases List.mem_append.mp hmem with hearlier | hlast
    · obtain ⟨earlier, hearlier, hsome⟩ := List.mem_filterMap.mp hearlier
      cases hblock : blockVerdict earlier with
      | error reason =>
        rw [hblock] at hsome
        cases hsome
      | ok other =>
        rw [hblock] at hsome
        cases hsome
        simpa using hfront earlier hearlier _ hblock
    · rw [List.mem_singleton.mp hlast]
      simp
  have hfinal : finalVerdictCandidate text = .ok { index := block.index, verdict } := by
    unfold finalVerdictCandidate
    dsimp only
    rw [hblocks, List.getLast?_concat]
    dsimp only
    rw [hcandidates, List.getLast?_concat]
    dsimp only
    rw [← hcandidates, hagree]
    rfl
  have hnone : (proseVerdictMarkers (trim (text.take block.index))).find?
      (fun marker => decide (PROSE_VERDICT_STATUSES marker ≠ verdict.status)) = none := by
    rw [List.find?_eq_none]
    intro marker hmem
    simpa using hmarkers marker hmem
  unfold parseStageVerdict
  rw [hfinal]
  dsimp only
  rw [if_neg, hnone]
  simp only [Bool.and_eq_true, decide_eq_true_eq, not_and]
  intro hstatus
  rw [hpass hstatus]
  decide

/-- **The two channels agree.** What an accepted call is normalized to holds exactly the submitted
    findings, ranked; and a message whose last fenced block is the record of the call is parsed to
    the same verdict, unless an earlier block is a verdict with another status or its prose
    carries a marker that disagrees. -/
theorem channels_agree (input : StageCompletionInput) (normalized : NormalizedStageCompletion)
    (h : normalizeStageCompletion input = .ok normalized) :
    (normalized.verdict.rankedFindings =
        (if submittedFindings input.findings = [] then none
        else some (rankStageFindings (submittedFindings input.findings))) ∧
      normalized.verdict.findings =
        (if submittedFindings input.findings = [] then none
        else some ((rankStageFindings (submittedFindings input.findings)).map stageFindingText))) ∧
    ((rankStageFindings (submittedFindings input.findings)).Perm
        (submittedFindings input.findings) ∧
      (rankStageFindings (submittedFindings input.findings)).Pairwise
        (fun left right => SEVERITY_RANK left.severity ≤ SEVERITY_RANK right.severity) ∧
      ∀ severity, (rankStageFindings (submittedFindings input.findings)).filter
          (·.severity = severity) =
        (submittedFindings input.findings).filter (·.severity = severity)) ∧
    ∀ text front block members, fencedBlocks text = front ++ [block] →
      parse block.payload = some (.object members) → SameRecord input members →
      (∀ earlier ∈ front, ∀ candidate, blockVerdict earlier = .ok candidate →
        candidate.verdict.status = normalized.verdict.status) →
      (∀ marker ∈ proseVerdictMarkers (trim (text.take block.index)),
        PROSE_VERDICT_STATUSES marker = normalized.verdict.status) →
      parseStageVerdict text =
        .parsed normalized.verdict ((trim (text.take block.index)).take MAX_OUTPUT_CHARS) := by
  obtain ⟨hrenderable, hpass, hverdict⟩ := verdict_of_call h
  refine ⟨rankedFindings_of_rendered hverdict,
    ⟨rankStageFindings_perm _, rankStageFindings_pairwise _, rankStageFindings_stable _⟩, ?_⟩
  intro text front block members hblocks hparse hsame hfront hmarkers
  obtain ⟨order, hrank, hmember⟩ := hsame.findings
  have horder : Renderable order := by
    have hperm := (rankStageFindings_perm order).symm
    rw [hrank] at hperm
    exact hrenderable.of_perm (hperm.trans (rankStageFindings_perm _))
  have hread : completionVerdictFrom (.object members) = some normalized.verdict := by
    rw [completionVerdictFrom_rendered horder hmember hsame.confidence, hsame.status,
      hsame.blocked, hsame.blockedReason, renderedVerdict_congr hrank]
    exact hverdict
  have hblock : blockVerdict block = .ok { index := block.index, verdict := normalized.verdict } := by
    unfold blockVerdict
    rw [hparse]
    dsimp only
    rw [hread]
  apply parseStageVerdict_of_last hblocks hblock hfront hmarkers
  intro hstatus
  rw [(rankedFindings_of_rendered hverdict).2, if_pos (hpass hstatus)]

/-! ### A call and two messages -/

/-- A failed stage with two findings, the worse one second. -/
def failedCall : StageCompletionInput :=
  { verdict := some (.string (units "fail"))
    findings := some (.array [
      .object [(units "severity", .string (units "P2")), (units "text", .string (units " late "))],
      .object [(units "severity", .string (units "P1")), (units "text", .string (units "open"))]]) }

def failedMembers : Members :=
  [(units "status", .string (units "fail")),
    (units "findings", .array [.string (units "P2 — late"), .string (units "P1 — open")])]

def failedMessage : Text :=
  units "Open.\n```json\n\x7b\"status\":\"fail\",\"findings\":[\"P2 — late\",\"P1 — open\"]\x7d\n```"

def failedBlock : FencedBlock :=
  { index := 6, line := 2, payloadStart := 14, payloadEnd := 68
    payload := units
      "\x7b\"status\":\"fail\",\"findings\":[\"P2 — late\",\"P1 — open\"]\x7d" }

def failedVerdict : StageVerdict :=
  { status := .fail
    findings := some [units "P1 — open", units "P2 — late"]
    rankedFindings := some [{ severity := some .P1, text := units "open" },
      { severity := some .P2, text := units "late" }] }

theorem sameRecord_failed : SameRecord failedCall failedMembers := by
  refine ⟨?_, ⟨submittedFindings failedCall.findings, rfl, ?_⟩, ?_, ?_, ?_⟩ <;> decide +kernel

theorem failed_channels_agree :
    parseStageVerdict failedMessage = .parsed failedVerdict (units "Open.") := by
  have hagree := (channels_agree failedCall
    { verdict := failedVerdict, summary := none, result := none, taskSummary := none }
    (by decide +kernel)).2.2 failedMessage [] failedBlock failedMembers (by decide +kernel)
    (by decide +kernel) sameRecord_failed (by simp) (by decide +kernel)
  rw [hagree]
  decide +kernel

/-- The record after a fenced example of another verdict. -/
def quotedMessage : Text :=
  units "```json\n\x7b\"status\":\"pass\"\x7d\n```\n" ++ failedMessage

def emptyCall : StageCompletionInput :=
  { verdict := some (.string (units "pass")), findings := some (.array []) }

def emptyMessage : Text :=
  units "```json\n\x7b\"status\":\"pass\",\"findings\":[]\x7d\n```"

/-- A message whose last block is the record of an accepted call is no verdict after a fenced
    example with another status; and an empty list of findings is kept in the message's verdict
    and left out of the call's. -/
theorem last_record_refused :
    (normalizeStageCompletion failedCall =
        .ok { verdict := failedVerdict, summary := none, result := none, taskSummary := none } ∧
      ((fencedBlocks quotedMessage).getLast?.bind (fun block => parse block.payload)) =
        some (.object failedMembers) ∧
      parseStageVerdict quotedMessage = .null) ∧
    normalizeStageCompletion emptyCall =
        .ok { verdict := { status := .pass }, summary := none, result := none
              taskSummary := none } ∧
      parseStageVerdict emptyMessage = .parsed { status := .pass, findings := some [] } [] := by
  refine ⟨⟨?_, ?_, ?_⟩, ?_, ?_⟩ <;> decide +kernel

end Delegatus.StageVerdicts
