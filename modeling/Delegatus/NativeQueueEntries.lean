import Delegatus.NativeQueue

/-!
# What one method does to an entry

One lemma for each method of the journal says all it can do to an entry (`admitMutation_ok`,
`prove_ok`, `move_ok`), and one for each of its writes which entry of the journal it saves
(`admit_ok`, `transition_ok`, `proveCompacted_ok`).  `Sound` is what holds of an entry by
itself, and `Follows` what an entry keeps for ever.
-/

namespace Delegatus.NativeQueue

open JsonText (Json)
open Refusals (bind_eq_ok map_eq_ok)

/-! ### Entries over time -/

/-- The version is the same one, and its input stays once it is set. -/
structure Prepared (version version' : Version) : Prop where
  same : version' = { version with input := version'.input }
  input : ∀ input, version.input = some input → version'.input = some input

theorem Prepared.refl (version : Version) : Prepared version version := ⟨rfl, fun _ h => h⟩

theorem Prepared.trans {first second third : Version} (h : Prepared first second)
    (h' : Prepared second third) : Prepared first third := by
  refine ⟨?_, fun input hinput => h'.input input (h.input input hinput)⟩
  rw [h'.same, h.same]

theorem Prepared.revision {version version' : Version} (h : Prepared version version') :
    version'.revision = version.revision := by rw [h.same]

theorem Prepared.operationId {version version' : Version} (h : Prepared version version') :
    version'.operationId = version.operationId := by rw [h.same]

/-- What an entry keeps over any run. -/
structure Follows (entry entry' : Record) : Prop where
  entryId : entry'.entryId = entry.entryId
  proof : ∀ proof, entry.proof = some proof → entry'.proof = some proof
  submission : ∀ id, entry.nativeSubmissionId = some id → entry'.nativeSubmissionId = some id
  versions : ∀ version ∈ entry.versions, ∃ version' ∈ entry'.versions, Prepared version version'

theorem Follows.refl (entry : Record) : Follows entry entry where
  entryId := rfl
  proof := fun _ h => h
  submission := fun _ h => h
  versions := fun version hversion => ⟨version, hversion, Prepared.refl version⟩

theorem Follows.trans {first second third : Record} (h : Follows first second)
    (h' : Follows second third) : Follows first third where
  entryId := h'.entryId.trans h.entryId
  proof := fun proof hproof => h'.proof proof (h.proof proof hproof)
  submission := fun id hid => h'.submission id (h.submission id hid)
  versions := by
    intro version hversion
    obtain ⟨version', hversion', hprepared⟩ := h.versions version hversion
    obtain ⟨version'', hversion'', hprepared'⟩ := h'.versions version' hversion'
    exact ⟨version'', hversion'', hprepared.trans hprepared'⟩

/-- What holds of an entry by itself. -/
structure Sound (entry : Record) : Prop where
  revisions : entry.versions.map Version.revision = List.range' 1 entry.versions.length
  current : entry.revision ∈ entry.versions.map Version.revision
  proven : ∀ proof, entry.proof = some proof → entry.state = .delivered ∧
    ∃ version ∈ entry.versions, version.revision = proof.revision ∧
      version.input = some proof.input

theorem newEntry_sound (command : Command) (operationId : Id) :
    Sound (newEntry command operationId) where
  revisions := rfl
  current := List.mem_singleton.mpr rfl
  proven := fun _ hproof => by simp [newEntry] at hproof

/-! ### Transitions of the mutation under way -/

/-- What no transition of a mutation changes. -/
structure Kept (entry moved : Record) : Prop where
  entryId : moved.entryId = entry.entryId
  proof : moved.proof = entry.proof
  state : entry.proof.isSome = true → moved.state = entry.state
  submission : ∀ id, entry.nativeSubmissionId = some id → moved.nativeSubmissionId = some id
  versions : List.Forall₂ Prepared entry.versions moved.versions

theorem prepared_refl (versions : List Version) : List.Forall₂ Prepared versions versions :=
  List.forall₂_same.mpr fun version _ => Prepared.refl version

theorem Kept.follows {entry moved : Record} (h : Kept entry moved) : Follows entry moved where
  entryId := h.entryId
  proof := fun _ hproof => h.proof.trans hproof
  submission := h.submission
  versions := by
    intro version hversion
    obtain ⟨i, hi, rfl⟩ := List.getElem_of_mem hversion
    have hi' : i < moved.versions.length := h.versions.length_eq ▸ hi
    exact ⟨moved.versions[i], List.getElem_mem hi', h.versions.get hi hi'⟩

theorem Kept.revisions {entry moved : Record} (h : Kept entry moved) :
    moved.versions.map Version.revision = entry.versions.map Version.revision := by
  have hforall := h.versions
  generalize entry.versions = versions, moved.versions = versions' at hforall
  induction hforall with
  | nil => rfl
  | cons hprepared _ ih => rw [List.map_cons, List.map_cons, ih, hprepared.revision]

/-- What stays of an entry that only changes in the fields `Kept` does not name. -/
theorem Kept.of_fields {entry moved : Record} (hid : moved.entryId = entry.entryId)
    (hproof : moved.proof = entry.proof)
    (hstate : entry.proof.isSome = true → moved.state = entry.state)
    (hsubmission : moved.nativeSubmissionId = entry.nativeSubmissionId)
    (hversions : moved.versions = entry.versions) : Kept entry moved where
  entryId := hid
  proof := hproof
  state := hstate
  submission := fun _ h => hsubmission.trans h
  versions := hversions ▸ prepared_refl entry.versions

theorem moveTo_eq (entry : Record) (state : EntryState) :
    entry.moveTo state =
      { entry with state := if entry.proof.isSome then entry.state else state } := by
  unfold Record.moveTo
  split <;> rfl

theorem moveTo_kept (entry : Record) (state : EntryState) : Kept entry (entry.moveTo state) := by
  rw [moveTo_eq]
  exact .of_fields rfl rfl (fun h => if_pos h) rfl rfl

theorem dispatch_kept (entry : Record) (turnId : Id) : Kept entry (entry.dispatch turnId) := by
  unfold Record.dispatch
  rw [moveTo_eq]
  exact .of_fields rfl rfl (fun h => if_pos h) rfl rfl

theorem submit_ok {entry moved : Record} {nativeSubmissionId : Option String}
    (h : submit entry nativeSubmissionId = .ok moved) :
    Kept entry moved ∧ moved.revision = entry.revision := by
  unfold submit at h
  split at h
  case h_1 => nomatch h
  case h_2 id _ =>
    split_ifs at h with hother
    obtain rfl := Except.ok.inj h
    rw [moveTo_eq]
    refine ⟨⟨rfl, rfl, fun hproof => if_pos hproof, ?_, prepared_refl _⟩, rfl⟩
    intro held hheld
    rw [hheld, Option.any_some, Bool.not_eq_true, decide_eq_false_iff_not, not_not] at hother
    rw [hother]

/-- An acknowledgement changes neither the versions nor the revision. -/
theorem answer_ok {command : Command} {entry moved : Record}
    {nativeSubmissionId turnId : Option String} {deleted : Bool}
    (h : answer command entry nativeSubmissionId turnId deleted = .ok moved) :
    Kept entry moved ∧ moved.revision = entry.revision := by
  have hdispatch : ∀ turn, Kept entry (entry.dispatch turn) ∧
      (entry.dispatch turn).revision = entry.revision := by
    intro turn
    refine ⟨dispatch_kept entry turn, ?_⟩
    rw [Record.dispatch, moveTo_eq]
  unfold answer at h
  split at h
  case h_1 =>
    split at h
    case h_1 => exact submit_ok h
    case h_2 turn _ =>
      split_ifs at h
      · rw [← Except.ok.inj h]
        exact hdispatch turn
      · exact submit_ok h
  case h_2 => exact submit_ok h
  case h_3 =>
    rw [← Except.ok.inj h]
    refine ⟨moveTo_kept entry _, ?_⟩
    rw [moveTo_eq]
  case h_4 =>
    split at h
    case h_1 => nomatch h
    case h_2 turn _ =>
      rw [← Except.ok.inj h]
      exact hdispatch turn
  case h_5 =>
    split at h
    case h_1 => nomatch h
    case h_2 turn _ =>
      rw [← Except.ok.inj h]
      exact hdispatch turn
  case h_6 =>
    rw [← Except.ok.inj h]
    exact ⟨.of_fields rfl rfl (fun _ => rfl) rfl rfl, rfl⟩

/-- The transitions that answer the mutation with success. -/
def Transition.accepts : Transition → Bool
  | .acknowledged _ _ _ => true
  | .observedQueued _ _ _ => true
  | _ => false

def Transition.refuses : Transition → Bool
  | .refused _ => true
  | _ => false

/-- The transitions that end the mutation. -/
def Transition.ends : Transition → Bool
  | .acknowledged _ _ _ => true
  | .observedQueued _ _ _ => true
  | .refused _ => true
  | .seatWithdrawal _ => true
  | _ => false

/-- What a transition of the mutation under way does. -/
structure Moved (command : Command) (transition : Transition) (entry moved : Record) : Prop
    extends Kept entry moved where
  mutation : moved.mutationOperationId =
    if transition.ends then none else entry.mutationOperationId
  revision : moved.revision =
    if entry.proof.isNone && command.action = .update && transition.refuses then
      command.expectedRevision.getD 0
    else entry.revision
  answered : transition.ends = true → command.action ≠ .add →
    transition.accepts = true ∨ transition.refuses = true

theorem acknowledge_ok {command : Command} {entry moved : Record}
    {nativeSubmissionId turnId : Option String} {deleted : Bool}
    (h : acknowledge command entry nativeSubmissionId turnId deleted = .ok moved) :
    Kept entry moved ∧ moved.mutationOperationId = none ∧ moved.revision = entry.revision := by
  obtain ⟨answered, hanswer, rfl⟩ := map_eq_ok.mp h
  obtain ⟨hkept, hrevision⟩ := answer_ok hanswer
  exact ⟨⟨hkept.entryId, hkept.proof, hkept.state, hkept.submission, hkept.versions⟩, rfl, hrevision⟩

theorem modifyVersion_prepared {revision : Nat} {input : List Json} {versions : List Version}
    (hinput : ∀ version, versions.find? (·.revision = revision) = some version →
      ∀ held, version.input = some held → held = input) :
    List.Forall₂ Prepared versions
      (modifyVersion revision (fun version => { version with input := some input }) versions) := by
  induction versions with
  | nil => exact .nil
  | cons version rest ih =>
    rw [modifyVersion]
    split_ifs with hrevision
    · refine .cons ⟨rfl, fun held hheld => ?_⟩ (prepared_refl rest)
      have hsame := hinput version (by simp [hrevision]) held hheld
      rw [hsame]
    · refine .cons (Prepared.refl version) (ih fun found hfound => hinput found ?_)
      rw [List.find?_cons_of_neg (by simpa using hrevision)]
      exact hfound

theorem prepare_ok {command : Command} {entry moved : Record} {version : Version}
    {input : Option (List Json)} {binding : Option BindingCandidate}
    (hversion : currentVersion entry = some version)
    (h : prepare command entry version input binding = .ok moved) :
    Kept entry moved ∧ moved.mutationOperationId = entry.mutationOperationId ∧
      moved.revision = entry.revision := by
  unfold prepare at h
  split at h
  case h_1 => nomatch h
  case h_2 input =>
    split at h
    case isTrue => nomatch h
    obtain ⟨bound, -, h⟩ := bind_eq_ok.mp h
    split_ifs at h with hother
    obtain rfl := Except.ok.inj h
    refine ⟨⟨rfl, rfl, fun _ => rfl, fun _ hid => hid, ?_⟩, rfl, rfl⟩
    apply modifyVersion_prepared
    intro found hfound held hheld
    obtain rfl := Option.some.inj (hversion.symm.trans hfound)
    rw [hheld, Option.any_some, Bool.not_eq_true, decide_eq_false_iff_not, not_not] at hother
    exact hother

/-- A mutation that its transition leaves under way. -/
theorem Moved.of_kept {command : Command} {transition : Transition} {entry moved : Record}
    (hkept : Kept entry moved) (hends : transition.ends = false)
    (hmutation : moved.mutationOperationId = entry.mutationOperationId)
    (hrevision : moved.revision = entry.revision) : Moved command transition entry moved where
  toKept := hkept
  mutation := by rw [hends, hmutation]; rfl
  revision := by
    have hrefuses : transition.refuses = false := by
      cases transition with
      | refused reason => simp [Transition.ends] at hends
      | _ => rfl
    rw [hrefuses, Bool.and_false, hrevision]
    rfl
  answered := by
    rw [hends]
    intro h
    nomatch h

/-- **Every transition of a mutation keeps what an entry keeps**; only the refusal of an
update moves the revision, and only an answer ends the mutation. -/
theorem move_ok {inputMatches : Version → List Json → Bool} {command : Command}
    {entry moved : Record} {transition : Transition}
    (h : move inputMatches command entry transition = .ok moved) :
    Moved command transition entry moved := by
  cases transition with
  | observedQueued id clientUserMessageId input =>
    simp only [move] at h
    split at h
    case h_1 => nomatch h
    split_ifs at h
    obtain ⟨hkept, hmutation, hrevision⟩ := acknowledge_ok h
    exact ⟨hkept, hmutation, by simpa [Transition.refuses] using hrevision,
      fun _ _ => Or.inl rfl⟩
  | seatWithdrawal reason =>
    simp only [move] at h
    split at h
    case h_1 => nomatch h
    case h_2 version _ =>
      split_ifs at h with hsubmitted
      have hunproven : entry.proof.isNone = true := by
        simp only [unsubmitted, Bool.not_eq_true', Bool.not_eq_false, Bool.and_eq_true]
          at hsubmitted
        exact hsubmitted.2
      obtain rfl := Except.ok.inj h
      refine ⟨.of_fields rfl rfl (fun hproven => ?_) rfl rfl, rfl, ?_, ?_⟩
      · rw [Option.isNone_iff_eq_none.mp hunproven] at hproven
        nomatch hproven
      · simp [Transition.refuses]
      · intro _ haction
        simp only [unsubmitted, Bool.not_eq_true', Bool.not_eq_false, Bool.and_eq_true,
          decide_eq_true_eq] at hsubmitted
        exact absurd hsubmitted.1.1.1.1 haction
  | prepared input binding =>
    simp only [move] at h
    split at h
    case h_1 => nomatch h
    case h_2 version hversion =>
      obtain ⟨hkept, hmutation, hrevision⟩ := prepare_ok hversion h
      exact .of_kept hkept rfl hmutation hrevision
  | deferred reason =>
    obtain rfl := Except.ok.inj h
    exact .of_kept (.of_fields rfl rfl (fun _ => rfl) rfl rfl) rfl rfl rfl
  | withdrawn =>
    simp only [move] at h
    split_ifs at h
    obtain rfl := Except.ok.inj h
    rw [moveTo_eq]
    exact .of_kept (.of_fields rfl rfl (fun hproven => if_pos hproven) rfl rfl) rfl rfl rfl
  | uncertain reason =>
    obtain rfl := Except.ok.inj h
    rw [moveTo_eq]
    exact .of_kept (.of_fields rfl rfl (fun hproven => if_pos hproven) rfl rfl) rfl rfl rfl
  | refused reason =>
    simp only [move] at h
    obtain rfl := Except.ok.inj h
    cases hproof : entry.proof with
    | some proof =>
      exact ⟨.of_fields rfl rfl (fun _ => rfl) rfl rfl, rfl, by simp [hproof],
        fun _ _ => Or.inr rfl⟩
    | none =>
      refine ⟨.of_fields ?_ ?_ ?_ ?_ ?_, ?_, ?_, fun _ _ => Or.inr rfl⟩
      all_goals simp [hproof, Transition.refuses, Transition.ends]
  | acknowledged nativeSubmissionId turnId deleted =>
    obtain ⟨hkept, hmutation, hrevision⟩ := acknowledge_ok h
    exact ⟨hkept, hmutation, by simpa [Transition.refuses] using hrevision,
      fun _ _ => Or.inl rfl⟩
  | removed =>
    obtain rfl := Except.ok.inj h
    exact .of_kept (.of_fields rfl rfl (fun _ => rfl) rfl rfl) rfl rfl rfl
  | proven candidate =>
    obtain rfl := Except.ok.inj h
    exact .of_kept (.of_fields rfl rfl (fun _ => rfl) rfl rfl) rfl rfl rfl

/-- A sound entry stays sound, if what a refusal returns to is one of its versions. -/
theorem Moved.sound {command : Command} {transition : Transition} {entry moved : Record}
    (h : Moved command transition entry moved) (hsound : Sound entry)
    (hreturns : command.action = .update → ∃ revision, command.expectedRevision = some revision ∧
      revision ∈ entry.versions.map Version.revision) : Sound moved where
  revisions := by
    rw [h.revisions, hsound.revisions, h.versions.length_eq]
  current := by
    rw [h.revisions, h.revision]
    split_ifs with hrefused
    · simp only [Bool.and_eq_true, decide_eq_true_eq] at hrefused
      obtain ⟨revision, hexpected, hmem⟩ := hreturns hrefused.1.2
      rw [hexpected]
      exact hmem
    · exact hsound.current
  proven := by
    intro proof hproof
    rw [h.proof] at hproof
    obtain ⟨hstate, version, hversion, hrevision, hinput⟩ := hsound.proven proof hproof
    refine ⟨(h.state (by rw [hproof]; rfl)).trans hstate, ?_⟩
    obtain ⟨version', hversion', hprepared⟩ := h.follows.versions version hversion
    exact ⟨version', hversion', hprepared.revision.trans hrevision,
      hprepared.input proof.input hinput⟩

/-! ### Proofs -/

/-- What a canonical proof does to an entry. -/
structure Proves (proof : Proof) (entry proven : Record) : Prop where
  version : ∃ version ∈ entry.versions, version.revision = proof.revision ∧
    version.input = some proof.input
  held : ∀ held, entry.proof = some held → held = proof
  eq : proven = { entry with
    proof := some proof
    dispatchedRevision := some proof.revision
    dispatchedTurnId := some proof.turnId
    state := .delivered
    mutationOperationId := entry.mutationOperationId.filter (· ≠ entry.entryId)
    reason := none }

theorem prove_ok {entry proven : Record} {candidate : ProofCandidate}
    (h : prove entry candidate = .ok proven) : ∃ proof, Proves proof entry proven := by
  unfold prove at h
  split at h
  case h_1 => nomatch h
  case h_2 proof _ =>
    simp only at h
    split_ifs at h with hmismatch hconflict
    refine ⟨proof, ?_, ?_, (Except.ok.inj h).symm⟩
    · simp only [Bool.or_eq_true, decide_eq_true_eq, not_or, not_not] at hmismatch
      obtain ⟨version, hversion, hinput⟩ := Option.bind_eq_some_iff.mp hmismatch.2
      exact ⟨version, List.mem_of_find?_eq_some hversion,
        by simpa using List.find?_some hversion, hinput⟩
    · intro held hheld
      rw [hheld, Option.any_some, Bool.not_eq_true, decide_eq_false_iff_not, not_not] at hconflict
      exact hconflict

theorem Proves.follows {proof : Proof} {entry proven : Record} (h : Proves proof entry proven) :
    Follows entry proven := by
  rw [h.eq]
  refine ⟨rfl, ?_, fun _ hid => hid, fun version hversion => ⟨version, hversion, .refl version⟩⟩
  intro held hheld
  rw [h.held held hheld]

theorem Proves.sound {proof : Proof} {entry proven : Record} (h : Proves proof entry proven)
    (hsound : Sound entry) : Sound proven := by
  rw [h.eq]
  refine ⟨hsound.revisions, hsound.current, ?_⟩
  intro held hheld
  rw [← Option.some.inj hheld]
  exact ⟨rfl, h.version⟩

/-! ### Admissions -/

/-- What the admission of a mutation does to an entry. -/
structure Admits (command : Command) (operationId : Id) (entry admitted : Record) : Prop where
  free : entry.mutationOperationId = none
  open' : entry.state ≠ .delivered
  expected : command.expectedRevision = some entry.revision
  eq : admitted = if command.action = .update then { entry with
      revision := entry.versions.length + 1
      mutationOperationId := some operationId
      versions := entry.versions ++
        [newVersion command operationId (entry.versions.length + 1) (currentVersion entry)] }
    else { entry with mutationOperationId := some operationId }

theorem admitMutation_ok {entry admitted : Record} {command : Command} {operationId : Id}
    (h : admitMutation entry command operationId = .ok admitted) :
    Admits command operationId entry admitted := by
  unfold admitMutation at h
  simp only at h
  split_ifs at h with howner hrevision hfrozen hwithdrawn hupdate
  all_goals
    simp only [Bool.or_eq_true, Bool.and_eq_true, decide_eq_true_eq, not_or, not_and_or,
      not_not, Bool.not_eq_true, Option.isSome_eq_false_iff, Option.isNone_iff_eq_none] at hfrozen
    refine ⟨hfrozen.1, ?_, (not_not.mp hrevision).symm, ?_⟩
    · rcases hfrozen.2 with hstate | hstate
      · simp [hstate]
      · simp [hstate]
    · simp [hupdate, ← Except.ok.inj h]

theorem Admits.entryId {command : Command} {operationId : Id} {entry admitted : Record}
    (h : Admits command operationId entry admitted) : admitted.entryId = entry.entryId := by
  rw [h.eq]
  split_ifs <;> rfl

theorem Admits.mutation {command : Command} {operationId : Id} {entry admitted : Record}
    (h : Admits command operationId entry admitted) :
    admitted.mutationOperationId = some operationId := by
  rw [h.eq]
  split_ifs <;> rfl

theorem Admits.follows {command : Command} {operationId : Id} {entry admitted : Record}
    (h : Admits command operationId entry admitted) : Follows entry admitted := by
  rw [h.eq]
  split_ifs
  · exact ⟨rfl, fun _ hproof => hproof, fun _ hid => hid, fun version hversion =>
      ⟨version, List.mem_append_left _ hversion, .refl version⟩⟩
  · exact ⟨rfl, fun _ hproof => hproof, fun _ hid => hid, fun version hversion =>
      ⟨version, hversion, .refl version⟩⟩

theorem Admits.unproven {command : Command} {operationId : Id} {entry admitted : Record}
    (h : Admits command operationId entry admitted) (hsound : Sound entry) :
    entry.proof = none := by
  cases hproof : entry.proof with
  | none => rfl
  | some proof => exact absurd (hsound.proven proof hproof).1 h.open'

theorem Admits.sound {command : Command} {operationId : Id} {entry admitted : Record}
    (h : Admits command operationId entry admitted) (hsound : Sound entry) : Sound admitted := by
  have hunproven := h.unproven hsound
  rw [h.eq]
  split_ifs
  · refine ⟨?_, ?_, fun proof hproof => by simp [hunproven] at hproof⟩
    · rw [List.map_append, hsound.revisions, List.length_append, List.length_singleton,
        List.range'_concat]
      simp [newVersion, Nat.add_comm]
    · simp [newVersion]
  · exact ⟨hsound.revisions, hsound.current, fun proof hproof => by simp [hunproven] at hproof⟩

/-! ### What a method saves -/

theorem get_ok {q : Queue} {id : Option Id} {entry : Record} (h : q.get id = .ok entry) :
    entry ∈ q.entries.rows ∧ id = some entry.entryId := by
  unfold Queue.get at h
  split at h
  case h_2 => nomatch h
  case h_1 found hfound =>
    obtain rfl := Except.ok.inj h
    obtain ⟨key, rfl, hget⟩ := Option.bind_eq_some_iff.mp hfound
    obtain ⟨hmem, hkey⟩ := Table.get?_eq_some.mp hget
    exact ⟨hmem, congrArg some hkey.symm⟩

theorem admit_ok {q q' : Queue} {command : Command} {operationId : Id} {saved : Option Record}
    (h : q.admitCommand command operationId = .ok (saved, q')) :
    (saved = none ∧ q' = q) ∨
    (command.action = .add ∧ saved = some (newEntry command operationId) ∧
      q' = q.save (newEntry command operationId)) ∨
    ∃ entry ∈ q.entries.rows, ∃ admitted, command.action ≠ .add ∧
      truthy command.entryId = some entry.entryId ∧ Admits command operationId entry admitted ∧
      saved = some admitted ∧ q' = q.save admitted := by
  unfold Queue.admitCommand at h
  split at h
  · simp only [Except.ok.injEq, Prod.mk.injEq] at h
    exact Or.inl ⟨h.1.symm, h.2.symm⟩
  · split at h
    case isTrue hadd =>
      split at h
      · nomatch h
      · simp only [Except.ok.injEq, Prod.mk.injEq] at h
        exact Or.inr (Or.inl ⟨hadd, h.1.symm, h.2.symm⟩)
    case isFalse hadd =>
      obtain ⟨entry, hget, h⟩ := bind_eq_ok.mp h
      obtain ⟨admitted, hadmitted, h⟩ := bind_eq_ok.mp h
      simp only [Except.ok.injEq, Prod.mk.injEq] at h
      obtain ⟨hmem, hid⟩ := get_ok hget
      exact Or.inr (Or.inr ⟨entry, hmem, admitted, hadd, hid, admitMutation_ok hadmitted,
        h.1.symm, h.2.symm⟩)

/-- The entry that a transition of the operation is about. -/
def About (command : Command) (operationId : Id) (entry : Record) : Prop :=
  (command.action = .add ∧ entry.entryId = operationId) ∨
    (command.action ≠ .add ∧ truthy command.entryId = some entry.entryId)

theorem transition_ok {inputMatches : Version → List Json → Bool} {q q' : Queue}
    {command : Command} {operationId : Id} {transition : Transition} {saved : Option Record}
    (h : q.transition inputMatches command operationId transition = .ok (saved, q')) :
    (saved = none ∧ q' = q) ∨
    ∃ entry ∈ q.entries.rows, About command operationId entry ∧
      ((transition = .removed ∧ entry.mutationOperationId = none ∧ saved = some entry ∧ q' = q) ∨
      (∃ candidate proven proof, transition = .proven candidate ∧ Proves proof entry proven ∧
        saved = some proven ∧ q' = q.save proven) ∨
      ∃ moved, entry.mutationOperationId = some operationId ∧
        Moved command transition entry moved ∧ saved = some moved ∧ q' = q.save moved) := by
  unfold Queue.transition at h
  split at h
  · simp only [Except.ok.injEq, Prod.mk.injEq] at h
    exact Or.inl ⟨h.1.symm, h.2.symm⟩
  · obtain ⟨entry, hget, h⟩ := bind_eq_ok.mp h
    obtain ⟨hmem, hid⟩ := get_ok hget
    have habout : About command operationId entry := by
      split_ifs at hid with hadd
      · exact Or.inl ⟨hadd, (Option.some.inj hid).symm⟩
      · exact Or.inr ⟨hadd, hid⟩
    refine Or.inr ⟨entry, hmem, habout, ?_⟩
    split at h
    · nomatch h
    split at h
    case h_1 =>
      split_ifs at h with hunproven
      simp only [Except.ok.injEq, Prod.mk.injEq] at h
      simp only [Bool.or_eq_true, not_or, Bool.not_eq_true, Option.isSome_eq_false_iff,
        Option.isNone_iff_eq_none] at hunproven
      exact Or.inl ⟨rfl, hunproven.2, h.1.symm, h.2.symm⟩
    case h_2 candidate _ =>
      obtain ⟨proven, hproven, h⟩ := bind_eq_ok.mp h
      simp only [Except.ok.injEq, Prod.mk.injEq] at h
      obtain ⟨proof, hproof⟩ := prove_ok hproven
      exact Or.inr (Or.inl ⟨candidate, proven, proof, rfl, hproof, h.1.symm, h.2.symm⟩)
    case h_3 =>
      split at h
      · nomatch h
      case isFalse howned =>
        obtain ⟨moved, hmoved, h⟩ := bind_eq_ok.mp h
        simp only [Except.ok.injEq, Prod.mk.injEq] at h
        exact Or.inr (Or.inr ⟨moved, not_not.mp howned, move_ok hmoved, h.1.symm, h.2.symm⟩)

theorem proveCompacted_ok {q q' : Queue} {request : CompactedProof} {saved : Record}
    {replayed : Bool} (h : q.proveCompacted request = .ok (saved, replayed, q')) :
    ∃ entry ∈ q.entries.rows, (saved = entry ∧ q' = q) ∨
      ∃ proof, Proves proof entry saved ∧ q' = q.save saved := by
  unfold Queue.proveCompacted at h
  obtain ⟨entry, hget, h⟩ := bind_eq_ok.mp h
  refine ⟨entry, (get_ok hget).1, ?_⟩
  split at h
  · nomatch h
  split at h
  · nomatch h
  split at h
  · nomatch h
  split at h
  · split at h
    · nomatch h
    · simp only [Except.ok.injEq, Prod.mk.injEq] at h
      exact Or.inl ⟨h.1.symm, h.2.2.symm⟩
  split at h
  · nomatch h
  split at h
  · nomatch h
  split at h
  · nomatch h
  obtain ⟨proven, hproven, h⟩ := bind_eq_ok.mp h
  simp only [Except.ok.injEq, Prod.mk.injEq] at h
  obtain ⟨rfl, -, rfl⟩ := h
  obtain ⟨proof, hproof⟩ := prove_ok hproven
  exact Or.inr ⟨proof, hproof, rfl⟩

end Delegatus.NativeQueue
