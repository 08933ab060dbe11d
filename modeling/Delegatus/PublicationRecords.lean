import Delegatus.PublicationHistory
import Mathlib.Data.List.Dedup
import Mathlib.Data.List.ReduceOption

/-!
# Recorded failures and the validity of the history

`ValidRecovery` is what `isPublicationRecovery` asks of the row of one head.  A record keeps it exactly
when `Recordable` holds of the pipeline and the input: an exhausted legacy record raises the failures above
the delay list while only one attempt is counted, and a retry time beyond the range of dates throws after
the failure was counted and before the attempt was.
-/

namespace Delegatus.Publication

open JsonText OrderedLists

variable {dates : Dates}

/-! ### Valid rows -/

structure ValidRecovery (dates : Dates) (sha : Text) (row : Recovery) : Prop where
  head : fullHead sha = true
  own : row.sha = sha
  failures : 0 ≤ row.failures
  counted : row.failures ≤ row.totalAttempts
  total : row.totalAttempts ≤ MAX_SAFE_INTEGER
  since : ∀ since, row.app403Since = some since → (dates.parse since).isSome
  length : row.history.length ≤ HISTORY_LIMIT
  recorded : (row.history.length : Int) ≤ row.totalAttempts
  distinct : (row.history.map Entry.operationId).Nodup
  entries : ∀ entry ∈ row.history, isEntry dates entry = true

/-- `new Set(ids).size === ids.length`. -/
theorem dedup_length_eq {history : List Entry} :
    (history.map Entry.operationId).dedup.length = history.length ↔ (history.map Entry.operationId).Nodup := by
  constructor
  · intro hlength
    have hsame := (List.dedup_sublist (history.map Entry.operationId)).eq_of_length (by rw [hlength, List.length_map])
    rw [← hsame]
    exact List.nodup_dedup _
  · intro hnodup
    rw [hnodup.dedup, List.length_map]

theorem isRecovery_iff {sha : Text} {row : Recovery} :
    isRecovery dates sha row = true ↔ ValidRecovery dates sha row := by
  unfold isRecovery isSafeInteger
  simp only [Bool.and_eq_true, decide_eq_true_eq, List.all_eq_true, Option.all_eq_true, dedup_length_eq]
  constructor
  · rintro ⟨⟨⟨⟨⟨⟨⟨⟨⟨⟨hhead, hown⟩, -⟩, hfailures⟩, hsince⟩, -, htotal⟩, hlength⟩, hcounted⟩, hrecorded⟩, hdistinct⟩, hentries⟩
    exact ⟨hhead, hown, hfailures, hcounted, htotal, hsince, hlength, hrecorded, hdistinct, hentries⟩
  · intro h
    have hfailures := h.failures
    have hcounted := h.counted
    have htotal := h.total
    have hmax : (0 : Int) ≤ MAX_SAFE_INTEGER := by decide
    refine ⟨⟨⟨⟨⟨⟨⟨⟨⟨⟨h.head, h.own⟩, ?_, ?_⟩, hfailures⟩, h.since⟩, ?_, htotal⟩, h.length⟩, hcounted⟩, h.recorded⟩,
      h.distinct⟩, h.entries⟩
    · omega
    · omega
    · omega

theorem isPublicationRecovery_some {heads : Heads} :
    isPublicationRecovery dates (some heads) = true ↔ ∀ head ∈ heads.rows, ValidRecovery dates head.1 head.2 := by
  unfold isPublicationRecovery
  simp only [Option.all_some, List.all_eq_true, isRecovery_iff]

theorem valid_at? {value : Option Heads} (h : isPublicationRecovery dates value = true) {sha : Text} {row : Recovery}
    (hrow : (value.getD Table.empty).at? sha = some row) : ValidRecovery dates sha row := by
  cases value with
  | none => exact absurd hrow (by rw [Option.getD_none, Entries.at?_empty]; exact nofun)
  | some heads => exact isPublicationRecovery_some.mp h _ (Entries.at?_eq_some.mp hrow)

/-- The other rows stay valid. -/
theorem isPublicationRecovery_set {value : Option Heads} (h : isPublicationRecovery dates value = true) {sha : Text}
    {row : Recovery} : isPublicationRecovery dates (some ((value.getD Table.empty).set (sha, row))) = true ↔
      ValidRecovery dates sha row := by
  rw [isPublicationRecovery_some]
  constructor
  · intro hall
    exact hall _ (Table.mem_set.mpr (Or.inl rfl))
  · intro hrow head hhead
    rcases Table.mem_set.mp hhead with rfl | ⟨hmem, -⟩
    · exact hrow
    · exact valid_at? h (Entries.at?_eq_some.mpr hmem)

/-! ### When a record keeps the history valid -/

section Record

variable (dates : Dates) (pipeline : Pipeline) (publicationRetry : Option PublicationRetry) (input : FailureInput)
  (delays : List Int)

/-- The delay that the failure asks for, when no legacy record decides. -/
def nextDelay : Option Int :=
  let failures := (startRecovery pipeline publicationRetry).failures
  if input.recoverable ∧ sameLegacy pipeline publicationRetry = false ∧ failures < delays.length then
    delays[(max 0 failures).toNat]?
  else none

/-- The end of the window of the App push. -/
def windowEnd : Option Int :=
  ((earliest (startRecovery pipeline publicationRetry).app403Since (some (observedAt pipeline input))).bind
    dates.parse).map fun since => since + APP_PUSH_RETRY_WINDOW_MS

/-- The retry inside the window. -/
def windowDelay : Int :=
  let count := ((startRecovery pipeline publicationRetry).history.filter fun entry => entry.cause = .appGit403).length
  (PUBLICATION_RETRY_DELAYS_MS[min count (PUBLICATION_RETRY_DELAYS_MS.length - 1)]?).getD 0

/-- The retry times are in the range of dates. -/
structure InRange : Prop where
  delayed : ∀ delay, nextDelay pipeline publicationRetry input delays = some delay →
    ∃ ms, dates.parse input.at = some ms ∧ (dates.iso (ms + delay)).isSome
  window : input.cause = .appGit403 → input.recoverable = true →
    ∃ ms, dates.parse input.at = some ms ∧ ∃ ending, windowEnd dates pipeline publicationRetry input = some ending ∧
      (ending ≤ ms ∨ (dates.iso (min ending (ms + windowDelay pipeline publicationRetry))).isSome)

/-- The failures after the call fit the attempts. -/
def Counts (room : Int) : Prop :=
  let failures := (startRecovery pipeline publicationRetry).failures
  room ≤ MAX_SAFE_INTEGER ∧
    if exhaustedLegacy pipeline publicationRetry then failures ≤ room ∧ (delays.length : Int) < room
    else
      let failed := failures +
        if input.recoverable = true ∧ sameLegacy pipeline publicationRetry = false then 1 else 0
      0 ≤ failed ∧ failed ≤ room

/-- The new entry is one of its own, and a retry time copied from the legacy record is a date. -/
structure NewEntry : Prop where
  named : input.operationId ≠ []
  fresh : ∀ entry ∈ (startRecovery pipeline publicationRetry).history.rtake (HISTORY_LIMIT - 1),
    entry.operationId ≠ input.operationId
  copied : ∀ retry, legacy pipeline publicationRetry = some retry → sameLegacy pipeline publicationRetry = true →
    retry.exhausted = false → ¬(input.cause = .appGit403 ∧ input.recoverable = true) → (dates.parse retry.retryAt).isSome

/-- What a new record asks of the pipeline and the input. -/
def NewRecord : Prop :=
  let recovery := startRecovery pipeline publicationRetry
  (input.cause = .appGit403 → ∀ since, earliest recovery.app403Since (some (observedAt pipeline input)) = some since →
      (dates.parse since).isSome) ∧
    ((InRange dates pipeline publicationRetry input delays ∧
        Counts pipeline publicationRetry input delays (recovery.totalAttempts + 1) ∧
        NewEntry dates pipeline publicationRetry input) ∨
      (¬InRange dates pipeline publicationRetry input delays ∧
        Counts pipeline publicationRetry input delays recovery.totalAttempts))

/-- The call refuses the head, finds the operation, or makes a record that fits. -/
def Recordable : Prop :=
  fullHead pipeline.operation.sha = false ∨
    (∃ entry ∈ (startRecovery pipeline publicationRetry).history, entry.operationId = pipeline.operation.id) ∨
    NewRecord dates pipeline publicationRetry input delays

end Record

/-! ### The parts of a record -/

section Parts

variable {pipeline : Pipeline} {publicationRetry : Option PublicationRetry} {input : FailureInput} {delays : List Int}

theorem sameLegacy_of_exhausted (h : exhaustedLegacy pipeline publicationRetry = true) :
    sameLegacy pipeline publicationRetry = true := (Bool.and_eq_true _ _ ▸ h).1

/-- The failures after the call. -/
theorem counts_iff {room : Int} : Counts pipeline publicationRetry input delays room ↔
    room ≤ MAX_SAFE_INTEGER ∧ 0 ≤ failuresOf pipeline publicationRetry input delays ∧
      failuresOf pipeline publicationRetry input delays ≤ room := by
  unfold Counts failuresOf
  apply and_congr_right
  intro _
  cases hexhausted : exhaustedLegacy pipeline publicationRetry with
  | true =>
    have hsame := sameLegacy_of_exhausted hexhausted
    simp only [hsame, Bool.not_true, Bool.and_false, if_true, Bool.false_eq_true, if_false]
    omega
  | false => simp

theorem delayedRetry_eq : delayedRetry pipeline publicationRetry input dates delays =
    match (legacy pipeline publicationRetry).filter fun _ =>
      sameLegacy pipeline publicationRetry && !exhaustedLegacy pipeline publicationRetry with
    | some retry => some (some retry.retryAt)
    | none =>
      match nextDelay pipeline publicationRetry input delays with
      | some delay => ((dates.parse input.at).bind fun ms => dates.iso (ms + delay)).map some
      | none => some none := by
  unfold delayedRetry
  dsimp only
  cases hfilter : (legacy pipeline publicationRetry).filter fun _ =>
      sameLegacy pipeline publicationRetry && !exhaustedLegacy pipeline publicationRetry with
  | some retry => exact rfl
  | none =>
    have hdelay : (if input.recoverable = true ∧ failuresOf pipeline publicationRetry input delays ≤ delays.length then
        delays[(max 0 (failuresOf pipeline publicationRetry input delays - 1)).toNat]? else none) =
        nextDelay pipeline publicationRetry input delays := by
      unfold nextDelay failuresOf
      cases hexhausted : exhaustedLegacy pipeline publicationRetry with
      | true =>
        dsimp only
        rw [if_pos rfl, if_neg (by omega), if_neg (by simp [sameLegacy_of_exhausted hexhausted])]
      | false =>
        cases hsame : sameLegacy pipeline publicationRetry with
        | true =>
          have hlegacy : legacy pipeline publicationRetry = none := by
            rw [Option.eq_none_iff_forall_ne_some]
            simpa [hsame, hexhausted, Option.filter_eq_none_iff] using hfilter
          rw [sameLegacy, hlegacy] at hsame
          exact absurd hsame Bool.false_ne_true
        | false =>
          cases hrecoverable : input.recoverable with
          | false => simp
          | true =>
            simp only [true_and, Bool.not_false, Bool.and_self, if_true, Bool.false_eq_true, if_false,
              Int.add_sub_cancel]
            exact if_congr Int.add_one_le_iff rfl rfl
    dsimp only
    rw [← hdelay]
    by_cases hdelayed : input.recoverable = true ∧ failuresOf pipeline publicationRetry input delays ≤ delays.length
    · rw [if_pos hdelayed, if_pos hdelayed]
      all_goals cases delays[(max 0 (failuresOf pipeline publicationRetry input delays - 1)).toNat]? <;> exact rfl
    · rw [if_neg hdelayed, if_neg hdelayed]

theorem nextDelay_of_legacy (hsame : sameLegacy pipeline publicationRetry = true) :
    nextDelay pipeline publicationRetry input delays = none := by
  unfold nextDelay
  rw [if_neg (by simp [hsame])]

/-- The legacy record that decides the retry time. -/
theorem legacy_filter {retry : PublicationRetry} : ((legacy pipeline publicationRetry).filter fun _ =>
      sameLegacy pipeline publicationRetry && !exhaustedLegacy pipeline publicationRetry) = some retry ↔
    legacy pipeline publicationRetry = some retry ∧ sameLegacy pipeline publicationRetry = true ∧
      retry.exhausted = false := by
  rw [Option.filter_eq_some_iff]
  apply and_congr_right
  intro hlegacy
  rw [exhaustedLegacy, hlegacy, Option.any_some, Bool.and_eq_true, Bool.not_eq_true']
  constructor
  · rintro ⟨hsame, hexhausted⟩
    rw [hsame, Bool.true_and] at hexhausted
    exact ⟨hsame, hexhausted⟩
  · rintro ⟨hsame, hexhausted⟩
    rw [hsame, hexhausted]
    exact ⟨rfl, rfl⟩

theorem delayedRetry_isSome : (delayedRetry pipeline publicationRetry input dates delays).isSome = true ↔
    ∀ delay, nextDelay pipeline publicationRetry input delays = some delay →
      ∃ ms, dates.parse input.at = some ms ∧ (dates.iso (ms + delay)).isSome := by
  rw [delayedRetry_eq]
  split
  · next retry hretry =>
    rw [nextDelay_of_legacy (legacy_filter.mp hretry).2.1]
    simp
  · split
    · next delay hdelay =>
      rw [Option.isSome_map, hdelay]
      cases dates.parse input.at <;> simp
    · next hdelay => simp [hdelay]

theorem app403Retry_isSome (hcause : input.cause = .appGit403) :
    (app403Retry pipeline publicationRetry input dates).isSome = true ↔
      ∃ ms, dates.parse input.at = some ms ∧ ∃ ending, windowEnd dates pipeline publicationRetry input = some ending ∧
        (ending ≤ ms ∨ (dates.iso (min ending (ms + windowDelay pipeline publicationRetry))).isSome) := by
  unfold app403Retry windowEnd windowDelay app403SinceOf
  dsimp only
  rw [if_pos hcause]
  cases (earliest (startRecovery pipeline publicationRetry).app403Since
      (some (observedAt pipeline input))).bind dates.parse with
  | none => simp
  | some since =>
    cases dates.parse input.at with
    | none => simp
    | some ms =>
      dsimp only
      split
      · next hended => simp [hended]
      · next hopen => simp [hopen]

theorem retryAtOf_isSome : (retryAtOf pipeline publicationRetry input dates delays).isSome = true ↔
    InRange dates pipeline publicationRetry input delays := by
  unfold retryAtOf
  rw [Option.isSome_bind, Option.any_eq_true]
  constructor
  · rintro ⟨retryAt, hdelayed, hwindow⟩
    refine ⟨delayedRetry_isSome.mp (by rw [hdelayed]; rfl), fun hcause hrecoverable => ?_⟩
    rw [if_pos ⟨hcause, hrecoverable⟩] at hwindow
    exact (app403Retry_isSome hcause).mp hwindow
  · intro h
    obtain ⟨retryAt, hdelayed⟩ := Option.isSome_iff_exists.mp (delayedRetry_isSome.mpr h.delayed)
    refine ⟨retryAt, hdelayed, ?_⟩
    split
    · next happ => exact (app403Retry_isSome happ.1).mpr (h.window happ.1 happ.2)
    · exact rfl

/-- The retry time of a new entry is a date, unless the legacy record has one that is not. -/
theorem retryAtOf_parses (hiso : ∀ ms text, dates.iso ms = some text → (dates.parse text).isSome)
    {retryAt : Option Text} (h : retryAtOf pipeline publicationRetry input dates delays = some retryAt) :
    (∀ text, retryAt = some text → (dates.parse text).isSome) ↔
      ∀ retry, legacy pipeline publicationRetry = some retry → sameLegacy pipeline publicationRetry = true →
        retry.exhausted = false → ¬(input.cause = .appGit403 ∧ input.recoverable = true) →
          (dates.parse retry.retryAt).isSome := by
  obtain ⟨delayed, hdelayed, hwindow⟩ := Option.bind_eq_some_iff.mp h
  by_cases happ : input.cause = .appGit403 ∧ input.recoverable = true
  · rw [if_pos happ] at hwindow
    refine iff_of_true (fun text htext => ?_) fun _ _ _ _ hnot => absurd happ hnot
    unfold app403Retry at hwindow
    dsimp only at hwindow
    split at hwindow
    · split at hwindow
      · rw [htext] at hwindow
        exact absurd hwindow nofun
      · obtain ⟨date, hdate, rfl⟩ := Option.map_eq_some_iff.mp hwindow
        exact hiso _ _ (hdate.trans htext)
    · exact absurd hwindow nofun
  · rw [if_neg happ] at hwindow
    obtain rfl := Option.some.inj hwindow
    rw [delayedRetry_eq] at hdelayed
    split at hdelayed
    · next retry hretry =>
      obtain ⟨hlegacy, hsame, hexhausted⟩ := legacy_filter.mp hretry
      obtain rfl := Option.some.inj hdelayed
      constructor
      · intro hparses other hother _ _ _
        obtain rfl := Option.some.inj (hlegacy.symm.trans hother)
        exact hparses _ rfl
      · rintro hcopied text htext
        rw [← Option.some.inj htext]
        exact hcopied retry hlegacy hsame hexhausted happ
    · next hnone =>
      refine iff_of_true (fun text htext => ?_) fun retry hlegacy hsame hexhausted _ => ?_
      · split at hdelayed
        · obtain ⟨date, hdate, hmapped⟩ := Option.map_eq_some_iff.mp hdelayed
          obtain ⟨ms, -, hms⟩ := Option.bind_eq_some_iff.mp hdate
          rw [← hmapped] at htext
          exact hiso _ _ (hms.trans htext)
        · rw [htext] at hdelayed
          exact absurd hdelayed nofun
      · exact absurd (hnone.symm.trans (legacy_filter.mpr ⟨hlegacy, hsame, hexhausted⟩)) nofun

theorem detailOf_length (h : input.detail.length ≤ 400) : (detailOf pipeline input).length ≤ 400 := by
  unfold detailOf
  split
  · exact List.length_take_le 400 _
  · exact h

/-- The row that a record starts from. -/
theorem startRecovery_spec (hvalid : isPublicationRecovery dates pipeline.publicationRecovery = true) :
    let start := startRecovery pipeline publicationRetry
    start.sha = pipeline.operation.sha ∧ 0 ≤ start.totalAttempts ∧
      (∀ since, start.app403Since = some since → (dates.parse since).isSome) ∧
      start.history.length ≤ HISTORY_LIMIT ∧ (start.history.length : Int) ≤ start.totalAttempts ∧
      (start.history.map Entry.operationId).Nodup ∧ ∀ entry ∈ start.history, isEntry dates entry = true := by
  intro start
  cases hstored : (pipeline.publicationRecovery.getD Table.empty).at? pipeline.operation.sha with
  | some row =>
    have hrow : start = row := by
      show startRecovery pipeline publicationRetry = row
      unfold startRecovery
      rw [hstored, Option.getD_some]
    have hspec := valid_at? hvalid hstored
    rw [hrow]
    have hfailures := hspec.failures.trans hspec.counted
    exact ⟨hspec.own, hfailures, hspec.since, hspec.length, hspec.recorded, hspec.distinct, hspec.entries⟩
  | none =>
    have hrow : start = { sha := pipeline.operation.sha
                          failures := inheritedFailures pipeline publicationRetry
                          totalAttempts := max 0 (inheritedFailures pipeline publicationRetry -
                            if sameLegacy pipeline publicationRetry then 1 else 0)
                          app403Since := none
                          history := [] } := by
      show startRecovery pipeline publicationRetry = _
      unfold startRecovery
      rw [hstored, Option.getD_none]
    rw [hrow]
    exact ⟨rfl, le_max_left _ _, nofun, Nat.zero_le _, le_max_left _ _, List.nodup_nil, nofun⟩

end Parts

/-! ### The record -/

section Main

variable {pipeline : Pipeline} {publicationRetry : Option PublicationRetry} {input : FailureInput} {delays : List Int}

theorem set_stored {heads : Heads} {sha : Text} {row : Recovery} (h : heads.at? sha = some row) :
    heads.set (sha, row) = heads := by
  have hmem := Entries.at?_eq_some.mp h
  apply Table.ext_rows
  rw [Table.rows_set_of_present hmem rfl, Table.replaceRow]
  conv_rhs => rw [← List.map_id heads.rows]
  apply List.map_congr_left
  intro old hold
  split
  · next hkey => exact (heads.eq_of_key_eq hold hmem hkey).symm
  · exact rfl

/-- An operation that the history has is found, and nothing changes. -/
theorem recordPublicationFailure_recorded {recorded : Entry} (hhead : fullHead pipeline.operation.sha = true)
    (hfound : (startRecovery pipeline publicationRetry).history.find?
      (fun entry => entry.operationId = pipeline.operation.id) = some recorded) :
    recordPublicationFailure pipeline publicationRetry input dates delays = (pipeline, .ok recorded) := by
  have hstored : ∃ row, (pipeline.publicationRecovery.getD Table.empty).at? pipeline.operation.sha = some row ∧
      startRecovery pipeline publicationRetry = row := by
    unfold startRecovery at hfound ⊢
    cases hrow : (pipeline.publicationRecovery.getD Table.empty).at? pipeline.operation.sha with
    | none =>
      rw [hrow, Option.getD_none] at hfound
      exact absurd hfound nofun
    | some row => exact ⟨row, rfl, rfl⟩
  obtain ⟨row, hrow, hstart⟩ := hstored
  unfold recordPublicationFailure
  dsimp only
  rw [if_neg (not_not.mpr hhead), hfound]
  dsimp only
  rw [hstart, set_stored hrow]
  cases hrecovery : pipeline.publicationRecovery with
  | none =>
    rw [hrecovery, Option.getD_none, Entries.at?_empty] at hrow
    exact absurd hrow nofun
  | some heads =>
    rw [Option.getD_some, ← hrecovery]

theorem newRecord_valid (hiso : ∀ ms text, dates.iso ms = some text → (dates.parse text).isSome)
    (hvalid : isPublicationRecovery dates pipeline.publicationRecovery = true)
    (hdetail : input.detail.length ≤ 400) (hat : (dates.parse input.at).isSome = true) (hepoch : 0 < input.epoch)
    (hsafe : isSafeInteger input.epoch = true) (hhead : fullHead pipeline.operation.sha = true)
    (hnew : (startRecovery pipeline publicationRetry).history.find?
      (fun entry => entry.operationId = pipeline.operation.id) = none) :
    isPublicationRecovery dates
        (recordPublicationFailure pipeline publicationRetry input dates delays).1.publicationRecovery = true ↔
      NewRecord dates pipeline publicationRetry input delays := by
  obtain ⟨hown, htotal, hsince, hlength, hrecorded, hdistinct, hentries⟩ := @startRecovery_spec _ _ publicationRetry hvalid
  have hnewSince : (∀ since, app403SinceOf pipeline publicationRetry input = some since → (dates.parse since).isSome) ↔
      (input.cause = .appGit403 → ∀ since, earliest (startRecovery pipeline publicationRetry).app403Since
        (some (observedAt pipeline input)) = some since → (dates.parse since).isSome) := by
    unfold app403SinceOf
    dsimp only
    by_cases hcause : input.cause = .appGit403
    · rw [if_pos hcause]
      exact ⟨fun h _ => h, fun h => h hcause⟩
    · rw [if_neg hcause]
      exact iff_of_true hsince fun h => absurd h hcause
  unfold recordPublicationFailure
  dsimp only
  rw [if_neg (not_not.mpr hhead), hnew]
  dsimp only
  unfold NewRecord
  dsimp only
  rw [← hnewSince, counts_iff, counts_iff]
  cases hretry : retryAtOf pipeline publicationRetry input dates delays with
  | none =>
    have hout : ¬InRange dates pipeline publicationRetry input delays := by
      rw [← retryAtOf_isSome, hretry]
      exact Bool.false_ne_true
    dsimp only
    rw [isPublicationRecovery_set hvalid]
    constructor
    · intro h
      exact ⟨h.since, Or.inr ⟨hout, h.total, h.failures, h.counted⟩⟩
    · rintro ⟨hparses, ⟨hin, -⟩ | ⟨-, hmax, hfailures, hcounted⟩⟩
      · exact absurd hin hout
      · exact ⟨hhead, hown, hfailures, hcounted, hmax, hparses, hlength, hrecorded, hdistinct, hentries⟩
  | some retryAt =>
    have hin : InRange dates pipeline publicationRetry input delays := by
      rw [← retryAtOf_isSome, hretry]
      exact rfl
    dsimp only
    rw [isPublicationRecovery_set hvalid, show HISTORY_LIMIT = (HISTORY_LIMIT - 1) + 1 from rfl,
      List.rtake_concat_succ]
    have hkept : ((startRecovery pipeline publicationRetry).history.rtake (HISTORY_LIMIT - 1)).Sublist
        (startRecovery pipeline publicationRetry).history := List.drop_sublist _ _
    have hkeptLength : ((startRecovery pipeline publicationRetry).history.rtake (HISTORY_LIMIT - 1)).length ≤ HISTORY_LIMIT - 1 := by
      rw [List.rtake, List.length_drop]
      omega
    have hkeptLess := hkept.length_le
    have hparses := retryAtOf_parses hiso hretry
    have hentry : isEntry dates ⟨input.operationId, input.epoch, input.at, causeOf pipeline input,
        detailOf pipeline input, retryAt⟩ = true ↔
        input.operationId ≠ [] ∧ ∀ text, retryAt = some text → (dates.parse text).isSome := by
      have hshort := @detailOf_length pipeline _ hdetail
      unfold isEntry
      simp only [hsafe, hepoch, hat, hshort, Bool.and_eq_true, decide_eq_true_eq, Option.all_eq_true, and_true]
    constructor
    · intro h
      have hlast := hentry.mp (h.entries _ (List.mem_append_right _ (List.mem_singleton_self _)))
      have hunique := h.distinct
      rw [List.map_append, List.nodup_append] at hunique
      refine ⟨h.since, Or.inl ⟨hin, ⟨h.total, h.failures, h.counted⟩, hlast.1, fun entry hentry => ?_, hparses.mp hlast.2⟩⟩
      exact hunique.2.2 _ (List.mem_map_of_mem hentry) _ (List.mem_singleton_self _)
    · rintro ⟨hparsed, ⟨-, ⟨hmax, hfailures, hcounted⟩, hrecord⟩ | ⟨hout, -⟩⟩
      · refine ⟨hhead, hown, hfailures, hcounted, hmax, hparsed, ?_, ?_, ?_, ?_⟩
        · have hlimit : HISTORY_LIMIT - 1 + 1 = HISTORY_LIMIT := rfl
          rw [List.length_append, List.length_singleton]
          omega
        · rw [List.length_append, List.length_singleton, Int.natCast_add, Int.natCast_one]
          exact Int.add_le_add_right ((Int.ofNat_le.mpr hkeptLess).trans hrecorded) 1
        · rw [List.map_append, List.nodup_append]
          refine ⟨hdistinct.sublist (hkept.map _), List.nodup_singleton _, fun id hid other hother => ?_⟩
          obtain ⟨entry, hentry, rfl⟩ := List.mem_map.mp hid
          rw [List.mem_singleton.mp hother]
          exact hrecord.fresh entry hentry
        · intro entry hmem
          rcases List.mem_append.mp hmem with hold | hlast
          · exact hentries entry (hkept.subset hold)
          · rw [List.mem_singleton.mp hlast]
            exact hentry.mpr ⟨hrecord.named, hparses.mpr hrecord.copied⟩
      · exact absurd hin hout

end Main

/-! ### Merges -/

theorem earliest_mem {a b : Option Text} {since : Text} (h : earliest a b = some since) :
    a = some since ∨ b = some since := by
  have hmem := List.mem_of_head? h
  rw [List.mem_mergeSort, List.mem_filter, List.reduceOption_mem_iff] at hmem
  rcases List.mem_cons.mp hmem.1 with hsame | hmem
  · exact Or.inl hsame.symm
  · exact Or.inr (List.mem_singleton.mp hmem).symm

/-- The rows of a map of entries are under their own operations. -/
theorem ofList_own (entries : List Entry) :
    ∀ row ∈ (Table.ofList (entries.map fun entry => (entry.operationId, entry)) : Entries Text Entry).rows,
      row.2 ∈ entries ∧ row.1 = row.2.operationId := by
  unfold Table.ofList
  suffices hfold : ∀ (rest : List Entry) (held : Entries Text Entry),
      (∀ row ∈ held.rows, row.2 ∈ entries ∧ row.1 = row.2.operationId) → (∀ entry ∈ rest, entry ∈ entries) →
        ∀ row ∈ ((rest.map fun entry => (entry.operationId, entry)).foldl Table.set held).rows,
          row.2 ∈ entries ∧ row.1 = row.2.operationId from
    hfold entries Table.empty (fun row hrow => absurd hrow List.not_mem_nil) fun _ h => h
  intro rest
  induction rest with
  | nil => exact fun held hheld _ => hheld
  | cons entry rest ih =>
    intro held hheld hrest
    rw [List.map_cons, List.foldl_cons]
    apply ih
    · intro row hrow
      rcases Table.mem_set.mp hrow with rfl | ⟨hold, -⟩
      · exact ⟨hrest entry List.mem_cons_self, rfl⟩
      · exact hheld row hold
    · exact fun other hother => hrest other (List.mem_cons_of_mem _ hother)

theorem mem_of_byOperation {entries : List Entry} {entry : Entry} (h : entry ∈ byOperation entries) :
    entry ∈ entries := by
  obtain ⟨row, hrow, rfl⟩ := List.mem_map.mp h
  exact (ofList_own entries row hrow).1

theorem byOperation_distinct (entries : List Entry) : ((byOperation entries).map Entry.operationId).Nodup := by
  have hkeys : (byOperation entries).map Entry.operationId =
      (Table.ofList (entries.map fun entry => (entry.operationId, entry)) : Entries Text Entry).rows.map Prod.fst := by
    unfold byOperation
    rw [List.map_map]
    apply List.map_congr_left
    intro row hrow
    exact (ofList_own entries row hrow).2.symm
  rw [hkeys]
  exact Table.nodup _

variable {localeCompare : Text → Text → Int}

theorem mergeRows_valid {sha : Text} {old row : Recovery} (hold : ValidRecovery dates sha old)
    (hrow : ValidRecovery dates sha row) : ValidRecovery dates sha (mergeRows localeCompare sha old row) := by
  have hlength : (byOperation (old.history ++ row.history)).length ≤ 2 * HISTORY_LIMIT := by
    have hsub := ((byOperation_distinct (old.history ++ row.history)).of_map.subperm fun _ => mem_of_byOperation).length_le
    rw [List.length_append] at hsub
    have holdLength := hold.length
    have hrowLength := hrow.length
    omega
  have hkept : ((byOperation (old.history ++ row.history)).mergeSort fun a b =>
      entryOrder localeCompare a b ≤ 0).rtake HISTORY_LIMIT |>.Subperm (byOperation (old.history ++ row.history)) :=
    (List.drop_sublist _ _).subperm.trans (List.mergeSort_perm _ _).subperm
  unfold mergeRows
  dsimp only
  refine ⟨hold.head, rfl, ?_, ?_, ?_, fun since hsince => ?_, ?_, ?_, ?_, fun entry hentry => ?_⟩
  · exact hold.failures.trans (le_max_left _ _)
  · exact (max_le_max hold.counted hrow.counted).trans (le_max_left _ _)
  · have hcut : ((2 * HISTORY_LIMIT : ℕ) : Int) ≤ MAX_SAFE_INTEGER := by decide
    exact max_le (max_le hold.total hrow.total) ((Int.ofNat_le.mpr hlength).trans hcut)
  · rcases earliest_mem hsince with hold' | hrow'
    · exact hold.since since hold'
    · exact hrow.since since hrow'
  · rw [List.rtake, List.length_drop]
    omega
  · exact (Int.ofNat_le.mpr hkept.length_le).trans (le_max_right _ _)
  · obtain ⟨list, hperm, hsub⟩ := hkept
    exact (hperm.map Entry.operationId).nodup_iff.mp ((byOperation_distinct _).sublist (hsub.map _))
  · rcases List.mem_append.mp (mem_of_byOperation (hkept.subset hentry)) with hold' | hrow'
    · exact hold.entries entry hold'
    · exact hrow.entries entry hrow'

/-- A merge of two valid histories is valid. -/
theorem mergePublicationRecovery_valid {previous current : Option Heads}
    (hprevious : isPublicationRecovery dates previous = true) (hcurrent : isPublicationRecovery dates current = true) :
    isPublicationRecovery dates (mergePublicationRecovery localeCompare previous current) = true := by
  unfold mergePublicationRecovery
  split
  · exact rfl
  · have hrows : ∀ head ∈ (current.getD Table.empty).rows, ValidRecovery dates head.1 head.2 := by
      intro head hhead
      exact valid_at? hcurrent (Entries.at?_eq_some.mpr hhead)
    have hstart : ∀ head ∈ (previous.getD Table.empty).rows, ValidRecovery dates head.1 head.2 := by
      intro head hhead
      exact valid_at? hprevious (Entries.at?_eq_some.mpr hhead)
    rw [isPublicationRecovery_some]
    generalize (previous.getD Table.empty) = merged at hstart ⊢
    generalize (current.getD Table.empty).rows = rows at hrows ⊢
    induction rows generalizing merged with
    | nil => exact hstart
    | cons head rest ih =>
      rw [List.foldl_cons]
      have hhead := hrows head List.mem_cons_self
      refine ih _ ?_ fun other hother => hrows other (List.mem_cons_of_mem _ hother)
      unfold mergeHead
      cases hold : Entries.at? merged head.1 with
      | none =>
        intro other hother
        rcases Table.mem_set.mp hother with rfl | ⟨hmem, -⟩
        · exact hhead
        · exact hstart other hmem
      | some old =>
        intro other hother
        rcases Table.mem_set.mp hother with rfl | ⟨hmem, -⟩
        · exact mergeRows_valid (hstart _ (Entries.at?_eq_some.mp hold)) hhead
        · exact hstart other hmem

/-! ### When the history stays valid -/

section Main

variable {pipeline : Pipeline} {publicationRetry : Option PublicationRetry} {input : FailureInput} {delays : List Int}

/-- The entry of the operation is the one that is found. -/
theorem find?_recorded (hvalid : isPublicationRecovery dates pipeline.publicationRecovery = true) {recorded : Entry}
    (hrecorded : recorded ∈ (startRecovery pipeline publicationRetry).history)
    (hid : recorded.operationId = pipeline.operation.id) :
    fullHead pipeline.operation.sha = true ∧ (startRecovery pipeline publicationRetry).history.find?
      (fun entry => entry.operationId = pipeline.operation.id) = some recorded := by
  have hdistinct := (@startRecovery_spec _ _ publicationRetry hvalid).2.2.2.2.2.1
  constructor
  · unfold startRecovery at hrecorded
    cases hrow : (pipeline.publicationRecovery.getD Table.empty).at? pipeline.operation.sha with
    | none =>
      rw [hrow, Option.getD_none] at hrecorded
      exact absurd hrecorded List.not_mem_nil
    | some row => exact (valid_at? hvalid hrow).head
  · cases hfound : (startRecovery pipeline publicationRetry).history.find?
        (fun entry => entry.operationId = pipeline.operation.id) with
    | none => exact absurd hid (by simpa using List.find?_eq_none.mp hfound recorded hrecorded)
    | some entry =>
      have hentry : entry.operationId = pipeline.operation.id := by simpa using List.find?_some hfound
      rw [List.inj_on_of_nodup_map hdistinct (List.mem_of_find?_eq_some hfound) hrecorded (hentry.trans hid.symm)]

/-- **The history stays valid** exactly when the record fits; an operation of the history is answered
again without a change, and a merge of valid histories is valid. -/
theorem publication_history_valid_iff (hiso : ∀ ms text, dates.iso ms = some text → (dates.parse text).isSome)
    (hvalid : isPublicationRecovery dates pipeline.publicationRecovery = true)
    (hdetail : input.detail.length ≤ 400) (hat : (dates.parse input.at).isSome = true) (hepoch : 0 < input.epoch)
    (hsafe : isSafeInteger input.epoch = true) :
    (isPublicationRecovery dates
        (recordPublicationFailure pipeline publicationRetry input dates delays).1.publicationRecovery = true ↔
      Recordable dates pipeline publicationRetry input delays) ∧
    (∀ recorded ∈ (startRecovery pipeline publicationRetry).history, recorded.operationId = pipeline.operation.id →
      recordPublicationFailure pipeline publicationRetry input dates delays = (pipeline, .ok recorded)) ∧
    ∀ previous current, isPublicationRecovery dates previous = true → isPublicationRecovery dates current = true →
      isPublicationRecovery dates (mergePublicationRecovery localeCompare previous current) = true := by
  refine ⟨?_, fun recorded hrecorded hid => ?_,
    fun previous current hprevious hcurrent => mergePublicationRecovery_valid hprevious hcurrent⟩
  rotate_left
  · obtain ⟨hhead, hfound⟩ := find?_recorded hvalid hrecorded hid
    exact recordPublicationFailure_recorded hhead hfound
  unfold Recordable
  cases hhead : fullHead pipeline.operation.sha with
  | false =>
      have hrefused : (recordPublicationFailure pipeline publicationRetry input dates delays).1 = pipeline := by
        unfold recordPublicationFailure
        dsimp only
        rw [if_pos (by rw [hhead]; exact Bool.false_ne_true)]
      rw [hrefused]
      exact iff_of_true hvalid (Or.inl rfl)
  | true =>
      cases hfound : (startRecovery pipeline publicationRetry).history.find?
          (fun entry => entry.operationId = pipeline.operation.id) with
      | some recorded =>
          rw [recordPublicationFailure_recorded hhead hfound]
          refine iff_of_true hvalid (Or.inr (Or.inl ⟨recorded, List.mem_of_find?_eq_some hfound, ?_⟩))
          simpa using List.find?_some hfound
      | none =>
          rw [newRecord_valid hiso hvalid hdetail hat hepoch hsafe hhead hfound]
          constructor
          · exact fun h => Or.inr (Or.inr h)
          · rintro (h | ⟨entry, hentry, hid⟩ | h)
            · exact absurd h Bool.true_eq_false.mp
            · have hnot := List.find?_eq_none.mp hfound entry hentry
              exact absurd hid (by simpa using hnot)
            · exact h

end Main

/-! ### An exhausted legacy record -/

/-- A pipeline without a history, whose operation is settled. -/
def settledPipeline : Pipeline where
  publicationRecovery := none
  operation := ⟨units "operation-1", List.replicate 40 0x61, none, none⟩
  journal := []

/-- The record that an earlier release left on the attempt. -/
def legacyRetry (failures : Int) : PublicationRetry where
  sha := List.replicate 40 0x61
  operationId := units "operation-1"
  failures := failures
  retryAt := units "2026-10-16T10:21:00.000Z"
  exhausted := true

def deadlineInput : FailureInput where
  operationId := units "operation-1"
  epoch := 1
  «at» := units "2026-10-16T10:21:00.000Z"
  cause := .infrastructureDeadline
  detail := units "execution deadline"
  recoverable := true

/-- The dates of the examples: one time is read, and none is written. -/
def oneDate : Dates where
  parse text := if text = units "2026-10-16T10:21:00.000Z" then some 1792146060000 else none
  iso _ := none

theorem publication_history_valid_of_three :
    isPublicationRecovery oneDate (recordPublicationFailure settledPipeline (some (legacyRetry 3)) deadlineInput oneDate
      PUBLICATION_RETRY_DELAYS_MS).1.publicationRecovery = true := by
  have hnone : nextDelay settledPipeline (some (legacyRetry 3)) deadlineInput PUBLICATION_RETRY_DELAYS_MS = none := by
    decide
  have hrange : InRange oneDate settledPipeline (some (legacyRetry 3)) deadlineInput PUBLICATION_RETRY_DELAYS_MS := by
    refine ⟨fun delay hdelay => ?_, fun hcause => absurd hcause (by decide)⟩
    rw [hnone] at hdelay
    contradiction
  have hcounts : Counts settledPipeline (some (legacyRetry 3)) deadlineInput PUBLICATION_RETRY_DELAYS_MS
      ((startRecovery settledPipeline (some (legacyRetry 3))).totalAttempts + 1) := by
    unfold Counts
    decide
  have hentry : NewEntry oneDate settledPipeline (some (legacyRetry 3)) deadlineInput := by
    refine ⟨by decide, by decide, fun retry hlegacy _ _ _ => ?_⟩
    obtain rfl : legacyRetry 3 = retry := Option.some.inj hlegacy
    decide
  refine (@publication_history_valid_iff oneDate (fun _ _ => 0) settledPipeline (some (legacyRetry 3)) deadlineInput
    PUBLICATION_RETRY_DELAYS_MS nofun rfl (by decide) (by decide) (by decide) (by decide)).1.mpr ?_
  exact Or.inr (Or.inr ⟨fun hcause => absurd hcause (by decide), Or.inl ⟨hrange, hcounts, hentry⟩⟩)

/-- **An exhausted record of one failure**: four failures are counted, and two attempts. -/
theorem exhausted_record_not_valid :
    (recordPublicationFailure settledPipeline (some (legacyRetry 1)) deadlineInput oneDate
        PUBLICATION_RETRY_DELAYS_MS).1.publicationRecovery.map
      (fun heads => heads.rows.map fun head => (head.2.failures, head.2.totalAttempts)) = some [(4, 2)] ∧
    isPublicationRecovery oneDate (recordPublicationFailure settledPipeline (some (legacyRetry 1)) deadlineInput oneDate
      PUBLICATION_RETRY_DELAYS_MS).1.publicationRecovery = false := by
  decide

end Delegatus.Publication
