import Delegatus.UnitText
import Mathlib.Data.List.Sort

/-!
# Findings of a stage and their rank

`stageFindingText` renders a finding with its severity and `stageFindingFromText` reads one
back. `rankStageFindings` puts the most severe first and keeps the order within a severity.
-/

namespace Delegatus.StageVerdicts

open JsonText UnitText

inductive StageFindingSeverity where
  | P0
  | P1
  | P2
  | P3
deriving DecidableEq

def STAGE_FINDING_SEVERITIES : List StageFindingSeverity := [.P0, .P1, .P2, .P3]

def StageFindingSeverity.text : StageFindingSeverity → Text
  | .P0 => units "P0"
  | .P1 => units "P1"
  | .P2 => units "P2"
  | .P3 => units "P3"

structure StageFinding where
  severity : Option StageFindingSeverity
  text : Text
deriving DecidableEq

def SEVERITY_RANK : Option StageFindingSeverity → Nat
  | some severity => STAGE_FINDING_SEVERITIES.idxOf severity
  | none => STAGE_FINDING_SEVERITIES.length

/-- An em dash, an en dash or a hyphen. -/
def isDash (u : UInt16) : Bool := u = 0x2014 || u = 0x2013 || u = 0x2D

/-- What `RANKED_FINDING_RE` matches: a severity, a dash with a blank on each side or a colon,
    and the rest. -/
def rankedFinding (text : Text) : Option (StageFindingSeverity × Text) :=
  STAGE_FINDING_SEVERITIES.findSome? (fun severity =>
    if severity.text <+: text then
      let rest := text.drop severity.text.length
      match rest.dropWhile isWhite with
      | [] => none
      | separator :: tail =>
        if isDash separator && rest.head?.any isWhite && tail.head?.any isWhite then
          some (severity, tail.dropWhile isWhite)
        else if separator = 58 then some (severity, tail.dropWhile isWhite)
        else none
    else none)

def stageFindingFromText (text : Text) : StageFinding :=
  match rankedFinding (trim text) with
  | some (severity, rest) =>
    if trim rest = [] then { severity := none, text := trim text }
    else { severity := some severity, text := trim rest }
  | none => { severity := none, text := trim text }

/-- The single rendering of a finding. -/
def stageFindingText (finding : StageFinding) : Text :=
  match finding.severity with
  | some severity => severity.text ++ units " — " ++ finding.text
  | none => finding.text

/-- Most severe first, unranked last; the sort is stable. -/
def rankStageFindings (findings : List StageFinding) : List StageFinding :=
  findings.insertionSort (fun left right =>
    SEVERITY_RANK left.severity ≤ SEVERITY_RANK right.severity)

/-! ### A rendered finding is read back -/

theorem rankedFinding_text (severity : StageFindingSeverity) {body : Text}
    (hbody : ∀ u, body.head? = some u → isWhite u = false) :
    rankedFinding (severity.text ++ units " — " ++ body) = some (severity, body) := by
  have hdash : units " — " = [0x20, 0x2014, 0x20] := by decide
  have hdrop : body.dropWhile isWhite = body := dropWhile_of_head hbody
  have hwhite : isWhite 0x20 = true := by decide
  have hplain : isWhite 0x2014 = false := by decide
  unfold rankedFinding
  rw [hdash]
  cases severity <;>
    simp [STAGE_FINDING_SEVERITIES, StageFindingSeverity.text, units, JsStrings.codeUnits,
      JsStrings.charUnits, hwhite, hplain, hdrop, isDash]

/-- A ranked finding with a text of its own. -/
structure Written (finding : StageFinding) : Prop where
  severity : finding.severity ≠ none
  text : finding.text ≠ []
  trimmed : Trimmed finding.text

theorem trimmed_stageFindingText {finding : StageFinding} (h : Written finding) :
    Trimmed (stageFindingText finding) := by
  obtain ⟨severity, text⟩ := finding
  cases severity with
  | none => exact absurd rfl h.severity
  | some severity =>
    refine ⟨?_, ?_⟩
    · intro u hu
      have hfirst : u = 80 := by
        cases severity <;>
          simpa [stageFindingText, StageFindingSeverity.text, units, JsStrings.codeUnits,
            JsStrings.charUnits] using hu.symm
      rw [hfirst]
      decide
    · intro u hu
      have htext : (text : Text) ≠ [] := h.text
      apply h.trimmed.last
      simpa [stageFindingText, List.getLast?_append, htext] using hu

theorem stageFindingFromText_text {finding : StageFinding} (h : Written finding) :
    stageFindingFromText (stageFindingText finding) = finding := by
  have htrim := trim_eq_self (trimmed_stageFindingText h)
  unfold stageFindingFromText
  rw [htrim]
  obtain ⟨severity, text⟩ := finding
  cases severity with
  | none => exact absurd rfl h.severity
  | some severity =>
    have hread := rankedFinding_text severity h.trimmed.head
    have hbody : trim text = text := trim_eq_self h.trimmed
    have htext : (text : Text) ≠ [] := h.text
    unfold stageFindingText
    dsimp only at hread ⊢
    rw [hread]
    simp [hbody, htext]

/-! ### The ranking -/

theorem rankStageFindings_perm (findings : List StageFinding) :
    (rankStageFindings findings).Perm findings :=
  List.perm_insertionSort _ findings

theorem rankStageFindings_pairwise (findings : List StageFinding) :
    (rankStageFindings findings).Pairwise
      (fun left right => SEVERITY_RANK left.severity ≤ SEVERITY_RANK right.severity) := by
  have htotal : Std.Total (fun left right : StageFinding =>
      SEVERITY_RANK left.severity ≤ SEVERITY_RANK right.severity) := ⟨fun _ _ => Nat.le_total _ _⟩
  have htrans : IsTrans StageFinding (fun left right =>
      SEVERITY_RANK left.severity ≤ SEVERITY_RANK right.severity) := ⟨fun _ _ _ => Nat.le_trans⟩
  exact List.pairwise_insertionSort _ findings

/-- Within a severity the order is the one the findings came in. -/
theorem rankStageFindings_stable (findings : List StageFinding)
    (severity : Option StageFindingSeverity) :
    (rankStageFindings findings).filter (·.severity = severity) =
      findings.filter (·.severity = severity) := by
  have htotal : Std.Total (fun left right : StageFinding =>
      SEVERITY_RANK left.severity ≤ SEVERITY_RANK right.severity) := ⟨fun _ _ => Nat.le_total _ _⟩
  have htrans : IsTrans StageFinding (fun left right =>
      SEVERITY_RANK left.severity ≤ SEVERITY_RANK right.severity) := ⟨fun _ _ _ => Nat.le_trans⟩
  have hsame : (findings.filter (·.severity = severity)).Pairwise
      (fun left right => SEVERITY_RANK left.severity ≤ SEVERITY_RANK right.severity) := by
    apply List.pairwise_of_forall_mem_list
    intro left hleft right hright
    simp only [List.mem_filter, decide_eq_true_eq] at hleft hright
    rw [hleft.2, hright.2]
  have hsub : (findings.filter (·.severity = severity)).Sublist (rankStageFindings findings) :=
    List.sublist_insertionSort hsame List.filter_sublist
  have hkept := hsub.filter (fun finding => decide (finding.severity = severity))
  rw [List.filter_filter] at hkept
  simp only [Bool.and_self] at hkept
  have hlength := ((rankStageFindings_perm findings).filter
    (fun finding => decide (finding.severity = severity))).length_eq
  exact (hkept.eq_of_length hlength.symm).symm

theorem rankStageFindings_rank (findings : List StageFinding) :
    rankStageFindings (rankStageFindings findings) = rankStageFindings findings :=
  List.Pairwise.insertionSort_eq (rankStageFindings_pairwise findings)

end Delegatus.StageVerdicts
