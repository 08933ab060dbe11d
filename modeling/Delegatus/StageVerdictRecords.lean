import Delegatus.StageVerdictChannels

/-!
# A verdict that was kept reads as itself

A verdict is kept as the record that `stageVerdictFrom` made of it, and every later reader validates
the record again.  The validation ranks, trims and renders, and does nothing more the second time.
-/

namespace Delegatus.StageVerdicts

open JsonText UnitText

/-! ### The record that is kept -/

def keptFinding (finding : StageFinding) : Json :=
  .object
    [(units "severity", match finding.severity with
      | some severity => .string severity.text
      | none => .null),
     (units "text", .string finding.text)]

/-- The field of a kept verdict; a field that is undefined is left out. -/
def keptValue (verdict : StageVerdict) (key : String) : Option Json :=
  if key = "status" then some (.string (units verdict.status.text))
  else if key = "blocked" then verdict.blocked.map Json.bool
  else if key = "blockedReason" then verdict.blockedReason.map Json.string
  else if key = "findings" then verdict.findings.map fun texts => .array (texts.map Json.string)
  else if key = "rankedFindings" then
    verdict.rankedFindings.map fun ranked => .array (ranked.map keptFinding)
  else if key = "confidence" then verdict.confidence.map Json.number
  else none

def KEPT_KEYS : List String :=
  ["status", "blocked", "blockedReason", "findings", "rankedFindings", "confidence"]

def keptVerdict (verdict : StageVerdict) : Json :=
  .object (KEPT_KEYS.flatMap fun key => member key (keptValue verdict key))

section

variable (verdict : StageVerdict)

attribute [local simp] keptValue

theorem keptValue_status : keptValue verdict "status" = some (.string (units verdict.status.text)) := by
  simp

theorem keptValue_blocked : keptValue verdict "blocked" = verdict.blocked.map Json.bool := by
  simp

theorem keptValue_blockedReason :
    keptValue verdict "blockedReason" = verdict.blockedReason.map Json.string := by
  simp

theorem keptValue_findings : keptValue verdict "findings" =
    verdict.findings.map fun texts => .array (texts.map Json.string) := by
  simp

theorem keptValue_confidence : keptValue verdict "confidence" = verdict.confidence.map Json.number := by
  simp

end

theorem kept_keys_apart : ∀ key ∈ KEPT_KEYS, ∀ other ∈ KEPT_KEYS, units other = units key → other = key := by
  decide

theorem property_kept (verdict : StageVerdict) {key : String} (h : key ∈ KEPT_KEYS) :
    property (KEPT_KEYS.flatMap fun key => member key (keptValue verdict key)) key =
      keptValue verdict key := by
  rw [property_flatMap KEPT_KEYS (keptValue verdict) key (kept_keys_apart key h), if_pos h]

theorem kept_keys_allowed : ∀ key ∈ KEPT_KEYS, ALLOWED_KEYS.contains (units key) = true := by
  decide

/-! ### Each field reads as itself -/

theorem statusFrom_kept (status : StageVerdictStatus) :
    statusFrom (some (.string (units status.text))) = some status := by
  cases status with
  | pass => decide
  | fail => decide
  | needs_decision => decide

theorem blockedFrom_kept (blocked : Option Bool) : blockedFrom (blocked.map Json.bool) = some blocked := by
  cases blocked with
  | none => rfl
  | some blocked => rfl

theorem blockedReasonFrom_kept {status : StageVerdictStatus} {blocked : Option Bool} {value : Option Json}
    {reason : Option Text} (h : blockedReasonFrom status blocked value = some reason) :
    blockedReasonFrom status blocked (reason.map Json.string) = some reason := by
  unfold blockedReasonFrom at h ⊢
  split at h
  · rename_i hblocked
    rw [if_pos hblocked]
    split at h
    · exact nomatch h
    · rename_i hstatus
      rw [if_neg hstatus]
      split at h
      · dsimp only at h
        split at h
        · exact nomatch h
        · rename_i hshort
          rw [← Option.some.inj h]
          dsimp only [Option.map_some]
          rw [trim_trim, if_neg hshort]
      · exact nomatch h
  · rename_i hblocked
    rw [if_neg hblocked]
    split at h
    · exact nomatch h
    · rw [← Option.some.inj h]
      rfl

theorem confidenceFrom_kept {value : Option Json} {confidence : Option Text}
    (h : confidenceFrom value = some confidence) :
    confidenceFrom (confidence.map Json.number) = some confidence := by
  unfold confidenceFrom at h
  split at h
  · rw [← Option.some.inj h]
    rfl
  · rename_i literal
    split at h
    · rename_i hunit
      rw [← Option.some.inj h]
      exact if_pos hunit
    · exact nomatch h
  · exact nomatch h

/-- A finding's text is kept whole or has its rank read off it. -/
theorem stageFindingFromText_cases (text : Text) :
    stageFindingFromText text = { severity := none, text := trim text } ∨
      Written (stageFindingFromText text) := by
  unfold stageFindingFromText
  split
  · rename_i severity rest hread
    split
    · exact Or.inl rfl
    · rename_i hne
      exact Or.inr ⟨by simp, hne, trimmed_trim rest⟩
  · exact Or.inl rfl

theorem findingFrom_kept {allow allow' : Bool} (hallow : allow = true → allow' = true) {item : Json}
    {finding : StageFinding} (h : findingFrom allow item = some finding)
    (hshort : (stageFindingText finding).length ≤ MAX_FINDING_CHARS) :
    findingFrom allow' (.string (stageFindingText finding)) = some finding := by
  unfold findingFrom at h
  split at h
  · rename_i text
    dsimp only at h
    split at h
    · exact nomatch h
    · rename_i hfits
      split at h
      · exact nomatch h
      · rename_i hbare
        have hread := Option.some.inj h
        rcases stageFindingFromText_cases (trim text) with hplain | hwritten
        · rw [hplain, trim_trim] at hread
          have hsame : stageFindingText finding = trim text := by
            rw [← hread]
            rfl
          unfold findingFrom
          dsimp only
          rw [hsame, trim_trim, if_neg hfits, if_neg, hplain, trim_trim, hread]
          intro hbare'
          apply hbare
          cases hcase : allow with
          | false =>
            rw [Bool.and_eq_true] at hbare' ⊢
            exact ⟨rfl, hbare'.2⟩
          | true =>
            rw [hallow hcase] at hbare'
            exact hbare'
        · rw [hread] at hwritten
          have htrim := trim_eq_self (trimmed_stageFindingText hwritten)
          have hne : stageFindingText finding ≠ [] := by
            intro hnil
            have hagain := stageFindingFromText_text hwritten
            rw [hnil] at hagain
            exact hwritten.severity (by rw [← hagain]; rfl)
          unfold findingFrom
          dsimp only
          rw [htrim, not_bare hwritten, stageFindingFromText_text hwritten]
          simp [hne, Nat.not_lt.mpr hshort]
  · exact nomatch h

/-! ### The findings and the verdict -/

theorem mapM_findingFrom_kept {allow allow' : Bool} (hallow : allow = true → allow' = true)
    {findings : List StageFinding}
    (h : ∀ finding ∈ findings, ∃ item, findingFrom allow item = some finding)
    (hshort : ∀ finding ∈ findings, (stageFindingText finding).length ≤ MAX_FINDING_CHARS) :
    ((findings.map stageFindingText).map Json.string).mapM (findingFrom allow') = some findings := by
  induction findings with
  | nil => rfl
  | cons finding findings ih =>
    obtain ⟨item, hitem⟩ := h finding List.mem_cons_self
    have hfirst := findingFrom_kept hallow hitem (hshort finding List.mem_cons_self)
    have hrest := ih (fun other hother => h other (List.mem_cons_of_mem _ hother))
      (fun other hother => hshort other (List.mem_cons_of_mem _ hother))
    rw [List.map_cons, List.map_cons, List.mapM_cons, hfirst, hrest]
    rfl

theorem exists_item_of_mapM {allow : Bool} {items : List Json} {findings : List StageFinding}
    (h : items.mapM (findingFrom allow) = some findings) :
    findings.length = items.length ∧
      ∀ finding ∈ findings, ∃ item, findingFrom allow item = some finding := by
  induction items generalizing findings with
  | nil =>
    rw [← Option.some.inj h]
    exact ⟨rfl, fun finding hmem => nomatch hmem⟩
  | cons item items ih =>
    rw [List.mapM_cons] at h
    obtain ⟨first, hfirst, hmore⟩ := Option.bind_eq_some_iff.mp h
    obtain ⟨rest, hrest, hcons⟩ := Option.bind_eq_some_iff.mp hmore
    obtain ⟨hlength, hitems⟩ := ih hrest
    rw [← Option.some.inj hcons]
    refine ⟨by rw [List.length_cons, List.length_cons, hlength], ?_⟩
    intro finding hmem
    rcases List.mem_cons.mp hmem with hsame | hmem
    · rw [hsame]
      exact ⟨item, hfirst⟩
    · exact hitems finding hmem

theorem findingsFrom_kept {allow allow' : Bool} (hallow : allow = true → allow' = true)
    {value : Option Json} {ranked : Option (List StageFinding)}
    (h : findingsFrom allow value = some ranked) :
    findingsFrom allow'
      ((ranked.map (·.map stageFindingText)).map fun texts => .array (texts.map Json.string)) =
        some ranked := by
  unfold findingsFrom at h
  split at h
  · rw [← Option.some.inj h]
    rfl
  · rename_i items
    split at h
    · exact nomatch h
    · rename_i hfew
      split at h
      · exact nomatch h
      · rename_i findings hfindings
        dsimp only at h
        split at h
        · exact nomatch h
        · rename_i hlong
          obtain ⟨hlength, hitems⟩ := exists_item_of_mapM hfindings
          have hperm := rankStageFindings_perm findings
          have hshort : ∀ finding ∈ rankStageFindings findings,
              (stageFindingText finding).length ≤ MAX_FINDING_CHARS := by
            intro finding hmem
            rw [List.any_eq_true] at hlong
            by_contra hover
            exact hlong ⟨finding, hmem, decide_eq_true (Nat.lt_of_not_le hover)⟩
          have hread : ∀ finding ∈ rankStageFindings findings,
              ∃ item, findingFrom allow item = some finding :=
            fun finding hmem => hitems finding (hperm.mem_iff.mp hmem)
          rw [← Option.some.inj h]
          unfold findingsFrom
          dsimp only [Option.map_some]
          rw [List.length_map, List.length_map, hperm.length_eq, hlength, if_neg hfew,
            mapM_findingFrom_kept hallow hread hshort]
          dsimp only
          rw [rankStageFindings_rank, if_neg hlong]
  · exact nomatch h

/-- **A kept verdict reads as itself**, by a reader that is as lenient as the one that made it. -/
theorem stageVerdictFrom_keptVerdict (value : Json) (allow allow' : Bool) (verdict : StageVerdict)
    (hallow : allow = true → allow' = true) (h : stageVerdictFrom value allow = some verdict) :
    stageVerdictFrom (keptVerdict verdict) allow' = some verdict := by
  unfold stageVerdictFrom at h
  split at h
  · rename_i members
    split at h
    · exact nomatch h
    · obtain ⟨status, -, h⟩ := Option.bind_eq_some_iff.mp h
      obtain ⟨blocked, -, h⟩ := Option.bind_eq_some_iff.mp h
      obtain ⟨reason, hreason, h⟩ := Option.bind_eq_some_iff.mp h
      obtain ⟨ranked, hranked, h⟩ := Option.bind_eq_some_iff.mp h
      obtain ⟨confidence, hconfidence, h⟩ := Option.bind_eq_some_iff.mp h
      have hverdict := Option.some.inj h
      have hkeys : (KEPT_KEYS.flatMap fun key => member key (keptValue verdict key)).any
          (fun entry => !ALLOWED_KEYS.contains entry.1) = false := by
        rw [List.any_eq_false]
        intro entry hentry
        obtain ⟨key, hkey, hname⟩ := keys_of_flatMap hentry
        rw [hname, kept_keys_allowed key hkey]
        decide
      have hstatus : statusFrom (keptValue verdict "status") = some status := by
        rw [keptValue_status, ← hverdict, statusFrom_kept]
      have hblocked : blockedFrom (keptValue verdict "blocked") = some blocked := by
        rw [keptValue_blocked, ← hverdict, blockedFrom_kept]
      have hreasonKept : blockedReasonFrom status blocked (keptValue verdict "blockedReason") =
          some reason := by
        rw [keptValue_blockedReason, ← hverdict]
        exact blockedReasonFrom_kept hreason
      have hfindings : findingsFrom allow' (keptValue verdict "findings") = some ranked := by
        rw [keptValue_findings, ← hverdict]
        exact findingsFrom_kept hallow hranked
      have hconfidenceKept : confidenceFrom (keptValue verdict "confidence") = some confidence := by
        rw [keptValue_confidence, ← hverdict]
        exact confidenceFrom_kept hconfidence
      unfold stageVerdictFrom keptVerdict
      dsimp only
      rw [hkeys, property_kept verdict (by decide), property_kept verdict (by decide),
        property_kept verdict (by decide), property_kept verdict (by decide),
        property_kept verdict (by decide)]
      simp only [hstatus, hblocked, hreasonKept, hfindings, hconfidenceKept, Option.bind_eq_bind,
        Option.bind_some, Bool.false_eq_true, if_false]
      exact h
  · exact nomatch h

/-- A failed verdict with a bare severity, an unranked finding and a ranked one. -/
def legacyRecord : Json :=
  .object
    [(units "status", .string (units "fail")),
     (units "findings", .array [.string (units "P1"), .string (units " late"),
       .string (units "P0: lost write")])]

theorem legacyRecord_kept :
    ∃ verdict, stageVerdictFrom legacyRecord true = some verdict ∧
      stageVerdictFrom (keptVerdict verdict) true = some verdict := by
  have hsome : (stageVerdictFrom legacyRecord true).isSome = true := by
    decide
  obtain ⟨verdict, hverdict⟩ := Option.isSome_iff_exists.mp hsome
  exact ⟨verdict, hverdict,
    stageVerdictFrom_keptVerdict legacyRecord true true verdict (fun h => h) hverdict⟩

end Delegatus.StageVerdicts
