import Delegatus.LegacyReviews

/-!
# What a revert restores and what it discards

Right after a conversion a revert restores the definition that was replaced.  Later it goes by the digest
of the graph: an edit of a field that the digest leaves out, or normalises, is discarded (`Told` is the
exact condition under which none is).
-/

namespace Delegatus.LegacyReviews

open JsonText

variable {δ α κ : Type} [DecidableEq δ] {hashes : Hashes δ}

/-! ### The runs of a conversion -/

/-- A stored pipeline: the runs are those of the stages, whose ids differ. -/
structure Stored (pipeline : Pipeline δ α κ) : Prop where
  runs : pipeline.runs.map Run.stageId = pipeline.stages.map Stage.id
  distinct : (pipeline.stages.map Stage.id).Nodup
  cursor : ∀ cursor, pipeline.cursor = some cursor → cursor.stageId ∈ pipeline.stages.map Stage.id

theorem fixerStageId_fresh {reviewId fixerId : Text} {taken : List Text} (h : fixerStageId reviewId taken = some fixerId) :
    fixerId ∉ taken := by
  have hfound := List.find?_some h
  simpa using hfound

/-- The run of the stage stands alone. -/
theorem runs_split {stageId : Text} {runs : List (Run α)} {run : Run α} (hdistinct : (runs.map Run.stageId).Nodup)
    (hrun : runs.find? (fun run => run.stageId = stageId) = some run) :
    ∃ front back, runs = front ++ run :: back ∧ run.stageId = stageId ∧
      (∀ other ∈ front, other.stageId ≠ stageId) ∧ ∀ other ∈ back, other.stageId ≠ stageId := by
  obtain ⟨hid, front, back, rfl, hfront⟩ := List.find?_eq_some_iff_append.mp hrun
  rw [decide_eq_true_eq] at hid
  refine ⟨front, back, rfl, hid, fun other hother => by simpa using hfront other hother, fun other hother hsame => ?_⟩
  rw [List.map_append, List.map_cons, List.nodup_append, List.nodup_cons] at hdistinct
  exact hdistinct.2.1.1 (hid.trans hsame.symm ▸ List.mem_map_of_mem hother)

theorem keepAttempts_split {stageId : Text} {front back : List (Run α)} {run : Run α} (hrun : run.stageId = stageId)
    (hfront : ∀ other ∈ front, other.stageId ≠ stageId) : keepAttempts stageId (front ++ run :: back) =
      front ++ { run with attempts := run.attempts.map keepAttempt } :: back := by
  induction front with
  | nil => rw [List.nil_append, List.nil_append, keepAttempts, if_pos hrun]
  | cons first rest ih =>
    rw [List.cons_append, keepAttempts, if_neg (hfront first List.mem_cons_self),
      ih fun other hother => hfront other (List.mem_cons_of_mem _ hother), List.cons_append]

theorem withFixer_of_ne {stageId fixerId : Text} {runs : List (Run α)} (h : ∀ other ∈ runs, other.stageId ≠ stageId) :
    withFixer stageId fixerId runs = runs := by
  unfold withFixer
  induction runs with
  | nil => rfl
  | cons first rest ih =>
    rw [List.flatMap_cons, if_neg (h first List.mem_cons_self),
      ih fun other hother => h other (List.mem_cons_of_mem _ hother), List.singleton_append]

/-- The runs that a conversion leaves. -/
theorem converted_runs {stageId fixerId : Text} {front back : List (Run α)} {run : Run α} (hrun : run.stageId = stageId)
    (hfront : ∀ other ∈ front, other.stageId ≠ stageId) (hback : ∀ other ∈ back, other.stageId ≠ stageId) :
    withFixer stageId fixerId (keepAttempts stageId (front ++ run :: back)) =
      front ++ { run with attempts := run.attempts.map keepAttempt } :: ⟨fixerId, []⟩ :: back := by
  have happend : ∀ left right : List (Run α), withFixer stageId fixerId (left ++ right) =
      withFixer stageId fixerId left ++ withFixer stageId fixerId right := fun _ _ => List.flatMap_append
  have hcons : withFixer stageId fixerId ({ run with attempts := run.attempts.map keepAttempt } :: back) =
      { run with attempts := run.attempts.map keepAttempt } :: ⟨fixerId, []⟩ :: withFixer stageId fixerId back := by
    unfold withFixer
    rw [List.flatMap_cons, if_pos hrun]
    exact rfl
  rw [keepAttempts_split hrun hfront, happend, hcons, withFixer_of_ne hfront, withFixer_of_ne hback]

theorem historical_keepAttempt (attempt : Attempt α) : (keepAttempt attempt).historical = some true := by
  unfold keepAttempt
  split
  · assumption
  · exact rfl

omit [DecidableEq δ] in
theorem ran_eq_false {conversion : Conversion δ α κ} {runs : List (Run α)} : ran conversion runs = false ↔
    ∀ run ∈ runs, (run.stageId = conversion.stageId ∨ run.stageId = conversion.fixerStageId) →
      ∀ attempt ∈ run.attempts, attempt.historical = some true := by
  unfold ran
  simp only [List.any_eq_false, List.mem_filter, Bool.or_eq_true, decide_eq_true_eq, and_imp, not_exists, not_and,
    List.any_eq_true, ne_eq, Decidable.not_not]

omit [DecidableEq δ] in
theorem openConversion_last (conversions : List (Conversion δ α κ)) {conversion : Conversion δ α κ}
    (hopen : conversion.reverted = none) :
    openConversion (conversions ++ [conversion]) conversion.stageId = some (conversions.length, conversion) := by
  unfold openConversion
  rw [List.mapIdx_concat, List.filter_append, List.getLast?_append]
  simp [hopen]

/-! ### A revert right after the conversion -/

section Revert

variable {pipeline converted : Pipeline δ α κ} {preview : Preview} {expectedRevision : Text} {applied : Receipt}
  {conversion : Conversion δ α κ}

omit [DecidableEq δ] in
/-- What a conversion writes. -/
theorem apply_spec (h : applyLegacyReviewConversion hashes pipeline preview expectedRevision applied =
      some (converted, conversion)) :
    ∃ run, pipeline.runs.find? (fun run => run.stageId = preview.stageId) = some run ∧
      conversion.stageId = preview.stageId ∧ conversion.fixerStageId = preview.fixerStageId ∧
      conversion.original = ⟨pipeline.stages, run, pipeline.cursor, some pipeline.stateDetail⟩ ∧
      conversion.convertedGraphDigest = graphDigest hashes preview.stages ∧ conversion.reverted = none ∧
      converted.stages = preview.stages ∧
      converted.runs = withFixer preview.stageId preview.fixerStageId (keepAttempts preview.stageId pipeline.runs) ∧
      converted.cursor = (if pipeline.cursor.any fun cursor => cursor.stageId = preview.stageId then
        pipeline.cursor.map fun cursor => { cursor with state := .pending } else pipeline.cursor) ∧
      converted.legacyReviewConversions = some (pipeline.legacyReviewConversions.getD [] ++ [conversion]) := by
  obtain ⟨run, hrun, hpair⟩ := Option.map_eq_some_iff.mp h
  obtain ⟨rfl, rfl⟩ := Prod.mk.inj hpair
  exact ⟨run, hrun, rfl, rfl, rfl, rfl, rfl, rfl, rfl, rfl, rfl⟩

/-- **A revert with no write in between** restores the definition exactly. -/
theorem revert_apply (hstored : Stored pipeline)
    (hfixer : fixerStageId preview.stageId (pipeline.stages.map Stage.id) = some preview.fixerStageId)
    (h : applyLegacyReviewConversion hashes pipeline preview expectedRevision applied = some (converted, conversion))
    (receipt : Receipt) :
    ∃ next reverted, revertLegacyReviewConversion hashes converted preview.stageId receipt = (next, .ok reverted) ∧
      next.stages = pipeline.stages ∧ next.runs = pipeline.runs ∧ next.cursor = pipeline.cursor ∧
      next.stateDetail = pipeline.stateDetail := by
  obtain ⟨run, hrun, hstage, hfix, horiginal, hdigest, hopen, hstages, hruns, hcursor, hconversions⟩ := apply_spec h
  have hfresh := fixerStageId_fresh hfixer
  obtain ⟨front, back, hsplit, hid, hfront, hback⟩ := runs_split (hstored.runs ▸ hstored.distinct) hrun
  have hheld : ∀ other ∈ pipeline.runs, other.stageId ≠ preview.fixerStageId := by
    rintro other hother hsame
    exact hfresh (hsame ▸ hstored.runs ▸ List.mem_map_of_mem hother)
  rw [hsplit, converted_runs hid hfront hback] at hruns
  have hnotRan : ran conversion converted.runs = false := by
    rw [ran_eq_false, hruns, hstage, hfix]
    intro other hother hnamed
    rcases List.mem_append.mp hother with hin | hin
    · exact absurd hnamed (not_or.mpr ⟨hfront other hin, hheld other (hsplit ▸ List.mem_append_left _ hin)⟩)
    · rcases List.mem_cons.mp hin with rfl | hin
      · intro attempt hattempt
        obtain ⟨before, -, rfl⟩ := List.mem_map.mp hattempt
        exact historical_keepAttempt before
      · rcases List.mem_cons.mp hin with rfl | hin
        · exact fun attempt hattempt => absurd hattempt List.not_mem_nil
        · refine absurd hnamed (not_or.mpr ⟨hback other hin, hheld other (hsplit ▸ ?_)⟩)
          exact List.mem_append_right _ (List.mem_cons_of_mem _ hin)
  have hfound : openConversion (converted.legacyReviewConversions.getD []) preview.stageId =
      some ((pipeline.legacyReviewConversions.getD []).length, conversion) := by
    rw [hconversions, Option.getD_some, ← hstage]
    exact openConversion_last _ hopen
  unfold revertLegacyReviewConversion
  dsimp only
  rw [hfound]
  dsimp only
  rw [hnotRan, if_neg Bool.false_ne_true, if_neg (by rw [hstages, hdigest]; exact not_not.mpr rfl)]
  refine ⟨_, _, rfl, by rw [horiginal], ?_, ?_, by rw [horiginal]; rfl⟩
  · dsimp only
    rw [hruns, hstage, hfix, horiginal, hsplit]
    have hkeep : ∀ list : List (Run α), (∀ other ∈ list, other ∈ pipeline.runs) →
        (∀ other ∈ list, other.stageId ≠ preview.stageId) →
          (list.filter fun other => other.stageId ≠ preview.fixerStageId).map (fun other =>
            if other.stageId = preview.stageId then run else other) = list := by
      intro list hlist hother
      rw [List.filter_eq_self.mpr fun other hin => decide_eq_true (hheld other (hlist other hin))]
      conv_rhs => rw [← List.map_id list]
      apply List.map_congr_left
      intro other hin
      exact if_neg (hother other hin)
    have hrunKept : run.stageId ≠ preview.fixerStageId := hheld run (hsplit ▸ List.mem_append_right _ List.mem_cons_self)
    rw [List.filter_append, List.map_append, List.filter_cons, List.filter_cons, if_pos (decide_eq_true hrunKept),
      if_neg (by simp), List.map_cons, if_pos hid,
      hkeep front (fun other hin => hsplit ▸ List.mem_append_left _ hin) hfront,
      hkeep back (fun other hin => hsplit ▸ List.mem_append_right _ (List.mem_cons_of_mem _ hin)) hback]
  · dsimp only
    rw [hcursor, hstage, hfix, horiginal]
    cases hheldCursor : pipeline.cursor with
    | none => exact rfl
    | some cursor =>
      by_cases hat : cursor.stageId = preview.stageId
      · simp [hat]
      · have hnotFixer : cursor.stageId ≠ preview.fixerStageId := by
          intro hsame
          exact hfresh (hsame ▸ hstored.cursor cursor hheldCursor)
        simp [hat, hnotFixer]

end Revert

/-! ### A revert after edits -/

/-- What the digest of a graph is taken of. -/
def covered (stages : List Stage) : List (Text × StageDigestInput) :=
  stages.map fun stage => (stage.id, stageDigestInput stage)

/-- The fields that the digest leaves out, and those that it normalises. -/
structure StageRest where
  kind : StageKind
  engine : Option Engine
  model : Nullable Text
  effort : Nullable Text
  serviceTier : Nullable Text
  preferredServiceTier : Option Text
  access : Option Access
  sandbox : Option Sandbox
  outputs : Option (List Text)
  agentMemoryMaxBytes : Nullable ℕ
  account : Nullable Text
  params : Option (Option (List (Text × ParamValue)))
  onFail : Nullable FailEdge
  roleMemory : Nullable ℕ
  roleTier : Option Text
  roleTierSource : Option ServiceTierSource
  rolePreferredTier : Option Text

def stageRest (stage : Stage) : StageRest where
  kind := stage.kind
  engine := stage.engine
  model := stage.model
  effort := stage.effort
  serviceTier := stage.serviceTier
  preferredServiceTier := stage.preferredServiceTier
  access := stage.access
  sandbox := stage.sandbox
  outputs := stage.outputs
  agentMemoryMaxBytes := stage.agentMemoryMaxBytes
  account := stage.account
  params := stage.role.map RoleRef.params
  onFail := stage.onFail
  roleMemory := stage.effectiveRole.agentMemoryMaxBytes
  roleTier := stage.effectiveRole.serviceTier
  roleTierSource := stage.effectiveRole.serviceTierSource
  rolePreferredTier := stage.effectiveRole.preferredServiceTier

theorem role_ext {a b : Option RoleRef} (hid : a.map RoleRef.roleId = b.map RoleRef.roleId)
    (hparams : a.map RoleRef.params = b.map RoleRef.params) : a = b := by
  cases a with
  | none => exact (Option.map_eq_none_iff.mp hid.symm).symm
  | some left =>
    cases b with
    | none => exact absurd hid nofun
    | some right =>
      cases left
      cases right
      rw [Option.map_some, Option.map_some, Option.some.injEq] at hid hparams
      dsimp only at hid hparams
      rw [hid, hparams]

/-- A stage is what the digest covers and the rest. -/
theorem stage_ext {a b : Stage} (hid : a.id = b.id) (hinput : stageDigestInput a = stageDigestInput b)
    (hrest : stageRest a = stageRest b) : a = b := by
  have hrole : a.role = b.role := by
    apply role_ext
    · have hroles := congrArg (fun input => input.role.map Prod.fst) hinput
      simp only [stageDigestInput, Option.map_map] at hroles
      exact hroles
    · exact congrArg StageRest.params hrest
  have hruntime := congrArg StageDigestInput.runtime hinput
  have heffective : a.effectiveRole = b.effectiveRole := by
    simp only [stageDigestInput, RuntimeInput.mk.injEq] at hruntime
    simp only [stageRest, StageRest.mk.injEq] at hrest
    obtain ⟨hroleId, hengine, hmodel, heffort, -, -, haccess, hscaffold⟩ := hruntime
    obtain ⟨-, -, -, -, -, -, -, -, -, -, -, -, -, hmemory, htier, hsource, hpreferred⟩ := hrest
    cases ha : a.effectiveRole
    cases hb : b.effectiveRole
    simp_all
  simp only [stageDigestInput, StageDigestInput.mk.injEq] at hinput
  simp only [stageRest, StageRest.mk.injEq] at hrest
  cases a
  cases b
  simp_all

theorem stages_ext {a b : List Stage} (hcovered : covered a = covered b) (hrest : a.map stageRest = b.map stageRest) :
    a = b := by
  induction a generalizing b with
  | nil => exact (List.map_eq_nil_iff.mp hcovered.symm).symm
  | cons left rest ih =>
    cases b with
    | nil => exact absurd hcovered nofun
    | cons right others =>
      obtain ⟨hpair, hcovered⟩ := List.cons.inj hcovered
      obtain ⟨hrow, hrest⟩ := List.cons.inj hrest
      obtain ⟨hid, hinput⟩ := Prod.mk.inj hpair
      rw [stage_ext hid hinput hrow, ih hcovered hrest]

omit [DecidableEq δ] in
theorem graphDigest_eq_iff (hstage : Function.Injective hashes.stage) (hgraph : Function.Injective hashes.graph)
    {a b : List Stage} : graphDigest hashes a = graphDigest hashes b ↔ covered a = covered b := by
  have hdigests : ∀ stages : List Stage, (stages.map fun stage => (stage.id, stageDigest hashes stage)) =
      (covered stages).map fun pair => (pair.1, hashes.stage pair.2) := by
    intro stages
    unfold covered
    rw [List.map_map]
    exact rfl
  unfold graphDigest
  rw [hgraph.eq_iff, hdigests, hdigests, List.map_injective_iff.mpr _ |>.eq_iff]
  rintro ⟨id, input⟩ ⟨id', input'⟩ hsame
  obtain ⟨hid, hinput⟩ := Prod.mk.inj hsame
  exact Prod.ext hid (hstage hinput)

/-- No edit of a stage is discarded: an attempt ran, or the digest tells the edits, or they are not in the
fields that it leaves out or normalises. -/
def Told (conversion : Conversion δ α κ) (written : List Stage) (edited : Pipeline δ α κ) : Prop :=
  ran conversion edited.runs = true ∨ covered edited.stages ≠ covered written ∨
    edited.stages.map stageRest = written.map stageRest

/-- A revert that refuses changes nothing; one that succeeds replaces the stages that were written, exactly
if the digest tells the edits. -/
theorem revert_edited (hstage : Function.Injective hashes.stage) (hgraph : Function.Injective hashes.graph)
    {edited : Pipeline δ α κ} {conversion : Conversion δ α κ} {written : List Stage} {stageId : Text} {index : ℕ}
    (hfound : openConversion (edited.legacyReviewConversions.getD []) stageId = some (index, conversion))
    (hdigest : conversion.convertedGraphDigest = graphDigest hashes written) (receipt : Receipt) :
    ((∀ next reverted, revertLegacyReviewConversion hashes edited stageId receipt = (next, .ok reverted) →
        edited.stages = written) ∧
      ∀ next error, revertLegacyReviewConversion hashes edited stageId receipt = (next, .error error) →
        next = edited) ↔ Told conversion written edited := by
  unfold revertLegacyReviewConversion Told
  dsimp only
  rw [hfound]
  dsimp only
  by_cases hran : ran conversion edited.runs = true
  · rw [if_pos hran]
    refine iff_of_true ⟨fun next reverted h => ?_, fun next error h => (Prod.mk.inj h).1.symm⟩ (Or.inl hran)
    exact absurd (Prod.mk.inj h).2 nofun
  · rw [if_neg hran]
    by_cases hsame : graphDigest hashes edited.stages = conversion.convertedGraphDigest
    · have hcovered := (graphDigest_eq_iff hstage hgraph).mp (hsame.trans hdigest)
      rw [if_neg (not_not.mpr hsame)]
      constructor
      · rintro ⟨hsucceeds, -⟩
        have hstages := hsucceeds _ _ rfl
        exact Or.inr (Or.inr (by rw [hstages]))
      · rintro (h | h | hrest)
        · exact absurd h hran
        · exact absurd hcovered h
        · exact ⟨fun _ _ _ => stages_ext hcovered hrest, fun next error h => absurd (Prod.mk.inj h).2 nofun⟩
    · have hcovered : covered edited.stages ≠ covered written := by
        intro heq
        exact hsame (((graphDigest_eq_iff hstage hgraph).mpr heq).trans hdigest.symm)
      rw [if_pos hsame]
      refine iff_of_true ⟨fun next reverted h => ?_, fun next error h => (Prod.mk.inj h).1.symm⟩ (Or.inr (Or.inl hcovered))
      exact absurd (Prod.mk.inj h).2 nofun

/-- **A conversion is undone exactly**, and later a revert discards no edit exactly if the digest of the
graph tells the edits of the stages. -/
theorem conversion_undone_iff (hstage : Function.Injective hashes.stage) (hgraph : Function.Injective hashes.graph)
    {pipeline converted : Pipeline δ α κ} {preview : Preview} {expectedRevision : Text} {applied : Receipt}
    {conversion : Conversion δ α κ} (hstored : Stored pipeline)
    (hfixer : fixerStageId preview.stageId (pipeline.stages.map Stage.id) = some preview.fixerStageId)
    (h : applyLegacyReviewConversion hashes pipeline preview expectedRevision applied = some (converted, conversion)) :
    (∀ receipt, ∃ next reverted,
      revertLegacyReviewConversion hashes converted preview.stageId receipt = (next, .ok reverted) ∧
        next.stages = pipeline.stages ∧ next.runs = pipeline.runs ∧ next.cursor = pipeline.cursor ∧
        next.stateDetail = pipeline.stateDetail) ∧
    ∀ edited index receipt,
      openConversion (edited.legacyReviewConversions.getD []) preview.stageId = some (index, conversion) →
        (((∀ next reverted, revertLegacyReviewConversion hashes edited preview.stageId receipt = (next, .ok reverted) →
            edited.stages = preview.stages) ∧
          ∀ next error, revertLegacyReviewConversion hashes edited preview.stageId receipt = (next, .error error) →
            next = edited) ↔ Told conversion preview.stages edited) := by
  refine ⟨revert_apply hstored hfixer h, fun edited index receipt hfound => ?_⟩
  obtain ⟨-, -, -, -, -, hdigest, -⟩ := apply_spec h
  exact revert_edited hstage hgraph hfound hdigest receipt

/-! ### A lane with one review -/

section Sample

/-- Digests that keep what they are taken of. -/
inductive Kept
  | stage (input : StageDigestInput)
  | done
  | row (id : Text) (digest rest : Kept)
deriving DecidableEq

def kept : Hashes Kept := ⟨.stage, fun rows => rows.foldr (fun row rest => .row row.1 row.2 rest) .done⟩

theorem kept_stage : Function.Injective kept.stage := fun _ _ h => Kept.stage.inj h

theorem kept_graph : Function.Injective kept.graph := by
  intro left
  induction left with
  | nil =>
    intro right h
    cases right with
    | nil => exact rfl
    | cons row rest => exact absurd h nofun
  | cons first others ih =>
    intro right h
    cases right with
    | nil => exact absurd h nofun
    | cons row rest =>
      obtain ⟨hid, hdigest, hrest⟩ := Kept.row.inj h
      rw [ih hrest, Prod.ext hid hdigest]

def builder : EffectiveRole :=
  ⟨.codex, none, none, none, none, none, none, none, .readWrite, none⟩

def stage (id : Text) (kind : StageKind) (next : Option Text) (onFail : Option FailEdge) : Stage where
  id := id
  kind := kind
  runtime := none
  role := none
  engine := none
  model := none
  effort := none
  serviceTier := none
  preferredServiceTier := none
  agentMemoryMaxBytes := none
  access := none
  sandbox := none
  outputs := none
  account := none
  «prompt» := units "{{task}}"
  next := next
  onFail := some onFail
  effectiveRole := builder

/-- An implementer and its legacy review, which waits for a decision. -/
def lane : Pipeline Kept Unit Unit where
  stages := [stage (units "build") .run (some (units "review")) none, stage (units "review") .reviewLoop none none]
  runs := [⟨units "build", []⟩, ⟨units "review", [⟨none, none, ()⟩]⟩]
  cursor := some ⟨units "review", .reviewing, ()⟩
  state := .needsDecision
  pausedState := none
  stateDetail := none
  legacyReviewConversions := none

def accepted : Preview where
  stageId := units "review"
  implementerStageId := units "build"
  fixerStageId := units "review-fix"
  reviewLimit := 3
  reviewLimitSource := units "request"
  stages := [stage (units "build") .run (some (units "review")) none,
    stage (units "review") .run none (some ⟨units "review-fix", 3, some .advance⟩),
    stage (units "review-fix") .run (some (units "review")) none]

def receiptOf (request : String) : Receipt := ⟨units request, units "owner", units "2026-01-01T00:00:00.000Z"⟩

/-- The lane after its conversion. -/
def converted : Option (Pipeline Kept Unit Unit × Conversion Kept Unit Unit) :=
  applyLegacyReviewConversion kept lane accepted [] (receiptOf "convert")

/-- The fixer is put into the restricted sandbox. -/
def sandboxed (pipeline : Pipeline Kept Unit Unit) : Pipeline Kept Unit Unit :=
  { pipeline with stages := pipeline.stages.map fun stage =>
      if stage.id = accepted.fixerStageId then { stage with sandbox := some .restricted } else stage }

theorem conversion_undone_lane : ∃ next conversion, converted = some (next, conversion) ∧
    ∀ receipt, ∃ restored reverted,
      revertLegacyReviewConversion kept next accepted.stageId receipt = (restored, .ok reverted) ∧
        restored.stages = lane.stages ∧ restored.runs = lane.runs ∧ restored.cursor = lane.cursor ∧
        restored.stateDetail = lane.stateDetail := by
  have hstored : Stored lane := by
    refine ⟨by decide, by decide +kernel, fun cursor hcursor => ?_⟩
    obtain rfl := Option.some.inj hcursor
    decide
  obtain ⟨pair, hpair⟩ := Option.isSome_iff_exists.mp (by decide : converted.isSome = true)
  exact ⟨pair.1, pair.2, hpair,
    (conversion_undone_iff kept_stage kept_graph hstored (by decide) hpair).1⟩

/-- The sandbox of a stage is not in its digest: the revert succeeds, and the edit is gone. -/
theorem sandbox_edit_discarded : (converted.map fun pair =>
      let answer := revertLegacyReviewConversion kept (sandboxed pair.1) accepted.stageId (receiptOf "revert")
      (answer.2.toOption.isSome, decide ((sandboxed pair.1).stages = accepted.stages),
        decide (answer.1.stages = lane.stages))) = some (true, false, true) := by
  decide

end Sample

end Delegatus.LegacyReviews
