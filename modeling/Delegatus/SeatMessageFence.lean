import Delegatus.SeatMessages
import Mathlib.Data.List.Induction

/-!
# The fence of a recovered seat message

`recoverSeatMessage` reports an attempt as not executed only after it has left a
`not-delivered` row whose fence is not the attempt's (`Fenced`).  Later recoveries keep
that, because a rotated fence is a UUID that no call has carried (`FreshDraws`), so the
attempt cannot be admitted any more.  A row, once there, keeps its id and its digest
under every call (`Keeps`).
-/

namespace Delegatus.SeatMessages

variable (sha : String → String)

/-! ### What the two transactions do -/

/-- What `queueSeatMessage` makes of the collection: nothing, or the row of its key. -/
inductive QueueChange (sha : String → String) (call : QueueCall) (rows : Rows) :
    Rows → Except SeatMessageRefusal Acceptance → Prop where
  | refused (refusal : SeatMessageRefusal) : QueueChange sha call rows rows (.error refusal)
  | repeated {prior : Row} (hprior : rows.get? (call.key sha) = some prior)
      (hdigest : prior.digest = call.digest sha) (hst : prior.st ≠ some .notDelivered) :
      QueueChange sha call rows rows (.ok (seatMessageAcceptance prior (some call.link.label)))
  | admitted {prior : Option Row} (hprior : rows.get? (call.key sha) = prior)
      (hretry : ∀ row, prior = some row → row.digest = call.digest sha ∧
        row.st = some .notDelivered ∧ row.admissionFence = call.admissionFence) :
      QueueChange sha call rows (rows.set (queuedRow sha call prior))
        (.ok (seatMessageAcceptance (queuedRow sha call prior) (some call.link.label)))

theorem admitUnder_change {sha : String → String} {call : QueueCall} {rows : Rows} {prior : Option Row}
    (hprior : rows.get? (call.key sha) = prior)
    (hretry : ∀ row, prior = some row → row.digest = call.digest sha ∧
      row.st = some .notDelivered ∧ row.admissionFence = call.admissionFence) :
    QueueChange sha call rows (admitUnder sha call prior rows).1 (admitUnder sha call prior rows).2 := by
  unfold admitUnder
  cases quotaRefusal rows call.link call.now with
  | some refusal => exact .refused refusal
  | none => exact .admitted hprior hretry

theorem queueSeatMessage_change (call : QueueCall) (rows : Rows) :
    QueueChange sha call rows (queueSeatMessage sha call rows).1
      (queueSeatMessage sha call rows).2 := by
  unfold queueSeatMessage
  cases textRefusal call.text with
  | some refusal => exact .refused refusal
  | none =>
    cases hprior : rows.get? (call.key sha) with
    | none => exact admitUnder_change hprior (by simp)
    | some prior =>
      by_cases hdigest : prior.digest = call.digest sha
      · by_cases hst : prior.st = some .notDelivered
        · by_cases hfence : prior.admissionFence = call.admissionFence
          · simp only [hdigest, hst, hfence, ne_eq, not_true_eq_false, if_false]
            refine admitUnder_change hprior ?_
            rintro row ⟨⟩
            exact ⟨hdigest, hst, hfence⟩
          · simp only [hdigest, hst, hfence, ne_eq, not_true_eq_false, not_false_eq_true,
              if_false, if_true]
            exact .refused _
        · simp only [hdigest, hst, ne_eq, not_true_eq_false, not_false_eq_true, if_false, if_true]
          exact .repeated hprior hdigest hst
      · simp only [hdigest, ne_eq, not_false_eq_true, if_true]
        exact .refused _

/-- What the fencing transaction makes of the collection. -/
inductive PatchChange (sha : String → String) (call : RecoverCall) (request : RecoverRequest)
    (fenceUuid idUuid : String) (rows : Rows) :
    Rows → Except SeatMessageRefusal (Option RecoverOutcome) → Prop where
  | refused (refusal : SeatMessageRefusal) :
      PatchChange sha call request fenceUuid idUuid rows rows (.error refusal)
  | accepted {current : Row} (hcurrent : rows.get? (call.key sha) = some current) :
      PatchChange sha call request fenceUuid idUuid rows rows
        (.ok (some (.accepted (seatMessageAcceptance current none))))
  | fenced {current : Option Row} (hcurrent : rows.get? (call.key sha) = current)
      (hsame : ∀ row, current = some row →
        row.digest = request.digest sha call.canonicalProject ∧ row.st = some .notDelivered) :
      PatchChange sha call request fenceUuid idUuid rows
        (rows.set (fencedRow sha call request current fenceUuid idUuid))
        (.ok (some .notExecuted))

theorem recoverPatch_change (call : RecoverCall) (request : RecoverRequest)
    (fenceUuid idUuid : String) (rows : Rows) :
    PatchChange sha call request fenceUuid idUuid rows
      (recoverPatch sha call request fenceUuid idUuid rows).1
      (recoverPatch sha call request fenceUuid idUuid rows).2 := by
  unfold recoverPatch
  cases hcurrent : rows.get? (call.key sha) with
  | none => exact .fenced hcurrent (by simp)
  | some current =>
    by_cases hdigest : current.digest = request.digest sha call.canonicalProject
    · by_cases hst : current.st = some .notDelivered
      · simp only [hdigest, hst, ne_eq, not_true_eq_false, if_false]
        refine .fenced hcurrent ?_
        rintro row ⟨⟩
        exact ⟨hdigest, hst⟩
      · simp only [hdigest, hst, ne_eq, not_true_eq_false, not_false_eq_true, if_false, if_true]
        exact .accepted hcurrent
    · simp only [hdigest, ne_eq, not_false_eq_true, if_true]
      exact .refused _

/-- How the first half of a recovery can end.  It never reports non-delivery, and a
recovery that reaches the transaction carries its request there. -/
inductive ReadOutcome (call : RecoverCall) : RecoverRead → Prop where
  | refused (refusal : SeatMessageRefusal) : ReadOutcome call (.answer (.error refusal))
  | accepted (acceptance : Acceptance) :
      ReadOutcome call (.answer (.ok (some (.accepted acceptance))))
  | expired : ReadOutcome call (.answer (.ok (some .historyExpired)))
  | silent : ReadOutcome call (.answer (.ok none))
  | patch {request : RecoverRequest} (hrequest : call.request = some request) :
      ReadOutcome call (.patch request)

theorem window_outcome (call : RecoverCall) :
    ReadOutcome call (recoverRead.window call call.request) := by
  cases hrequest : call.request with
  | none => exact .silent
  | some request =>
    simp only [recoverRead.window]
    by_cases hfence : request.fence = some false
    · rw [if_pos hfence]
      exact .silent
    · rw [if_neg hfence]
      cases request.claimedAt with
      | none => exact .silent
      | some claimedAt =>
        by_cases hearly : call.now - claimedAt < SECONDS_30
        · simp only [if_pos hearly]
          exact .silent
        · simp only [if_neg hearly]
          exact .patch hrequest

theorem recoverRead_outcome (call : RecoverCall) (rows : Rows) :
    ReadOutcome call (recoverRead sha call rows) := by
  have hwindow := window_outcome call
  unfold recoverRead
  cases rows.get? (call.key sha) with
  | some row =>
    dsimp only
    split
    · exact .refused _
    · split
      · exact .accepted _
      · exact hwindow
  | none =>
    dsimp only
    split
    · split
      · exact .expired
      · exact hwindow
    · exact hwindow

/-! ### One row and one id for a key -/

/-- Every row of `rows` is still there, with its id and its digest. -/
def Keeps (rows rows' : Rows) : Prop :=
  ∀ key row, rows.get? key = some row →
    ∃ row', rows'.get? key = some row' ∧ row'.id = row.id ∧ row'.digest = row.digest

theorem keeps_refl (rows : Rows) : Keeps rows rows :=
  fun _ row h => ⟨row, h, rfl, rfl⟩

theorem keeps_trans (a b c : Rows) (hab : Keeps a b) (hbc : Keeps b c) : Keeps a c := by
  intro key row h
  obtain ⟨row', h', hid, hdigest⟩ := hab key row h
  obtain ⟨row'', h'', hid', hdigest'⟩ := hbc key row' h'
  exact ⟨row'', h'', hid'.trans hid, hdigest'.trans hdigest⟩

/-- Putting a row keeps the others, and its own predecessor's id and digest if it has
them. -/
theorem keeps_set {rows : Rows} {put : Row}
    (h : ∀ row, rows.get? put.key = some row → put.id = row.id ∧ put.digest = row.digest) :
    Keeps rows (rows.set put) := by
  intro key row hrow
  by_cases hkey : key = put.key
  · subst hkey
    refine ⟨put, ?_, (h row hrow).1, (h row hrow).2⟩
    rw [Table.get?_set, if_pos rfl]
  · refine ⟨row, ?_, rfl, rfl⟩
    rw [Table.get?_set, if_neg hkey]
    exact hrow

theorem keeps_queueSeatMessage (call : QueueCall) (rows : Rows) :
    Keeps rows (queueSeatMessage sha call rows).1 := by
  have hchange := queueSeatMessage_change sha call rows
  generalize (queueSeatMessage sha call rows).1 = rows' at hchange ⊢
  generalize (queueSeatMessage sha call rows).2 = result at hchange
  cases hchange with
  | refused => exact keeps_refl rows
  | repeated => exact keeps_refl rows
  | admitted hprior hretry =>
    refine keeps_set fun row hrow => ?_
    have hsome := hprior.symm.trans hrow
    subst hsome
    exact ⟨rfl, (hretry row rfl).1.symm⟩

theorem keeps_recoverPatch (call : RecoverCall) (request : RecoverRequest)
    (fenceUuid idUuid : String) (rows : Rows) :
    Keeps rows (recoverPatch sha call request fenceUuid idUuid rows).1 := by
  have hchange := recoverPatch_change sha call request fenceUuid idUuid rows
  generalize (recoverPatch sha call request fenceUuid idUuid rows).1 = rows' at hchange ⊢
  generalize (recoverPatch sha call request fenceUuid idUuid rows).2 = result at hchange
  cases hchange with
  | refused => exact keeps_refl rows
  | accepted => exact keeps_refl rows
  | fenced hcurrent hsame =>
    refine keeps_set fun row hrow => ?_
    have hsome := hcurrent.symm.trans hrow
    subst hsome
    exact ⟨rfl, (hsame row rfl).1.symm⟩

/-- **One step keeps every row.** -/
theorem keeps_step (store : Store) (op : Step) :
    Keeps store.rows (step sha store op).1.rows := by
  cases op with
  | queue call => exact keeps_queueSeatMessage sha call store.rows
  | recoverRead call =>
    simp only [step]
    split
    · exact keeps_refl _
    · exact keeps_refl _
  | recoverPatch index fenceUuid idUuid =>
    simp only [step]
    split
    · exact keeps_recoverPatch sha _ _ _ _ _
    · exact keeps_refl _

theorem keeps_run (pre post : List Step) :
    Keeps (run sha pre).rows (run sha (pre ++ post)).rows := by
  have hsplit : run sha (pre ++ post) = Runs.after (step sha) (run sha pre) post :=
    Runs.after_append ..
  rw [hsplit]
  exact Runs.after_related (R := fun before later : Store => Keeps before.rows later.rows)
    (fun _ => keeps_refl _) (fun _ _ _ => keeps_trans _ _ _) (fun _ _ => keeps_step sha _ _) _ post

/-! ### The fence -/

/-- The key's row exists and, as long as it is not delivered, is fenced against `fence`. -/
def Fenced (rows : Rows) (key : String) (fence : Option String) : Prop :=
  ∃ row, rows.get? key = some row ∧
    (row.st = some .notDelivered → row.admissionFence ≠ fence)

/-- The call puts a row that waits to be sent. -/
def Queues (call : QueueCall) (rows : Rows) : Prop :=
  (∀ prior, rows.get? (call.key sha) = some prior → prior.st = some .notDelivered) ∧
    ∃ row, (queueSeatMessage sha call rows).1.get? (call.key sha) = some row ∧
      row.st ≠ some .notDelivered

section Fence

variable {sha} {rows : Rows} {key : String} {fence : Option String}

/-- A fenced attempt is not admitted. -/
theorem not_queues_of_fenced {call : QueueCall}
    (h : Fenced rows (call.key sha) call.admissionFence) : ¬ Queues sha call rows := by
  rintro ⟨hprior, row, hrow, hst⟩
  obtain ⟨fenced, hfenced, hfence⟩ := h
  have hchange := queueSeatMessage_change sha call rows
  generalize (queueSeatMessage sha call rows).1 = rows' at hchange hrow
  generalize (queueSeatMessage sha call rows).2 = result at hchange
  cases hchange with
  | refused => exact hst (hprior row hrow)
  | repeated => exact hst (hprior row hrow)
  | admitted hget hretry =>
    have hsome := hget.symm.trans hfenced
    subst hsome
    obtain ⟨-, hnot, hsame⟩ := hretry fenced rfl
    exact hfence hnot hsame

theorem fenced_queueSeatMessage (call : QueueCall) (h : Fenced rows key fence) :
    Fenced (queueSeatMessage sha call rows).1 key fence := by
  obtain ⟨row, hrow, hfence⟩ := h
  have hchange := queueSeatMessage_change sha call rows
  generalize (queueSeatMessage sha call rows).1 = rows' at hchange ⊢
  generalize (queueSeatMessage sha call rows).2 = result at hchange
  cases hchange with
  | refused => exact ⟨row, hrow, hfence⟩
  | repeated => exact ⟨row, hrow, hfence⟩
  | @admitted prior hprior hretry =>
    by_cases hkey : key = call.key sha
    · refine ⟨queuedRow sha call prior, ?_, fun hst => by cases hst⟩
      exact (Table.get?_set ..).trans (if_pos hkey)
    · refine ⟨row, ?_, hfence⟩
      exact (Table.get?_set ..).trans ((if_neg hkey).trans hrow)

/-- The transaction keeps a fence in place: it keeps the fence it finds, or draws a
UUID, which is another one. -/
theorem fenced_recoverPatch {fenceUuid : String} (hfresh : fence ≠ some fenceUuid)
    (call : RecoverCall) (request : RecoverRequest) (idUuid : String)
    (h : Fenced rows key fence) :
    Fenced (recoverPatch sha call request fenceUuid idUuid rows).1 key fence := by
  obtain ⟨row, hrow, hfence⟩ := h
  have hchange := recoverPatch_change sha call request fenceUuid idUuid rows
  generalize (recoverPatch sha call request fenceUuid idUuid rows).1 = rows' at hchange ⊢
  generalize (recoverPatch sha call request fenceUuid idUuid rows).2 = result at hchange
  cases hchange with
  | refused => exact ⟨row, hrow, hfence⟩
  | accepted => exact ⟨row, hrow, hfence⟩
  | @fenced current hcurrent hsame =>
    by_cases hkey : key = call.key sha
    · refine ⟨fencedRow sha call request current fenceUuid idUuid, ?_, fun _ => ?_⟩
      · exact (Table.get?_set ..).trans (if_pos hkey)
      · subst hkey
        have hsome := hcurrent.symm.trans hrow
        subst hsome
        by_cases hrotate : row.admissionFence = request.admissionFence
        · simp only [fencedRow, hrotate, ne_eq, not_true_eq_false, if_false]
          exact hfresh.symm
        · simp only [fencedRow, hrotate, ne_eq, not_false_eq_true, if_true]
          exact hfence (hsame row rfl).2
    · refine ⟨row, ?_, hfence⟩
      exact (Table.get?_set ..).trans ((if_neg hkey).trans hrow)

/-- A transaction that reports non-delivery leaves the reported attempt fenced. -/
theorem fenced_of_notExecuted {call : RecoverCall} {request : RecoverRequest}
    {fenceUuid idUuid : String} (hfresh : request.admissionFence ≠ some fenceUuid)
    (h : (recoverPatch sha call request fenceUuid idUuid rows).2 = .ok (some .notExecuted)) :
    Fenced (recoverPatch sha call request fenceUuid idUuid rows).1 (call.key sha)
      request.admissionFence := by
  have hchange := recoverPatch_change sha call request fenceUuid idUuid rows
  generalize (recoverPatch sha call request fenceUuid idUuid rows).1 = rows' at hchange ⊢
  rw [h] at hchange
  cases hchange with
  | @fenced current hcurrent hsame =>
    refine ⟨fencedRow sha call request current fenceUuid idUuid, ?_, fun _ => ?_⟩
    · exact (Table.get?_set ..).trans (if_pos rfl)
    · cases current with
      | none => exact hfresh.symm
      | some current =>
        by_cases hrotate : current.admissionFence = request.admissionFence
        · simp only [fencedRow, hrotate, ne_eq, not_true_eq_false, if_false]
          exact hfresh.symm
        · simp only [fencedRow, hrotate, ne_eq, not_false_eq_true, if_true]

end Fence

/-! ### Runs -/

/-- The admission fence a step's call carries. -/
def carriedFence : Step → Option String
  | .queue call => call.admissionFence
  | .recoverRead call => call.request.bind RecoverRequest.admissionFence
  | .recoverPatch _ _ _ => none

/-- `randomUUID`: a UUID drawn as a fence is none that an earlier call carried. -/
def FreshDraws (ops : List Step) : Prop :=
  ∀ pre index fenceUuid idUuid post, ops = pre ++ .recoverPatch index fenceUuid idUuid :: post →
    ∀ op ∈ pre, carriedFence op ≠ some fenceUuid

/-- The step reports the attempt with `fence` under `key` as not executed. -/
def ReportsNotExecuted (key : String) (fence : Option String) (store : Store) (op : Step) :
    Prop :=
  ∃ call request, (step sha store op).2 = .recovered call (.ok (some .notExecuted)) ∧
    call.key sha = key ∧ call.request = some request ∧ request.admissionFence = fence

theorem FreshDraws.front {ops : List Step} {op : Step} (h : FreshDraws (ops ++ [op])) :
    FreshDraws ops := by
  rintro pre index fenceUuid idUuid post rfl
  exact h pre index fenceUuid idUuid (post ++ [op]) (by simp)

variable {sha}

theorem run_concat (ops : List Step) (op : Step) :
    run sha (ops ++ [op]) = (step sha (run sha ops) op).1 :=
  Runs.after_concat ..

/-- A waiting recovery was read during the run, with the request it carries. -/
theorem waiting_read (ops : List Step) :
    ∀ call request, (call, request) ∈ (run sha ops).waiting →
      call.request = some request ∧ .recoverRead call ∈ ops := by
  induction ops using List.reverseRecOn with
  | nil =>
    intro call request hmem
    cases hmem
  | append_singleton ops op ih =>
    have hold : ∀ call request, (call, request) ∈ (run sha ops).waiting →
        call.request = some request ∧ .recoverRead call ∈ ops ++ [op] := by
      intro call request hmem
      exact ⟨(ih call request hmem).1, List.mem_append_left _ (ih call request hmem).2⟩
    intro call request hmem
    rw [run_concat] at hmem
    cases op with
    | queue queued => exact hold call request hmem
    | recoverRead read =>
      have houtcome := recoverRead_outcome sha read (run sha ops).rows
      simp only [step] at hmem
      generalize recoverRead sha read (run sha ops).rows = outcome at houtcome hmem
      cases houtcome with
      | patch hrequest =>
        rcases List.mem_append.mp hmem with hmem | hmem
        · exact hold call request hmem
        · cases List.mem_singleton.mp hmem
          exact ⟨hrequest, by simp⟩
      | _ => exact hold call request hmem
    | recoverPatch index fenceUuid idUuid =>
      simp only [step] at hmem
      split at hmem
      · exact hold call request (List.mem_of_mem_eraseIdx hmem)
      · exact hold call request hmem

/-- Only the transaction of a waiting recovery reports non-delivery. -/
theorem reports_recoverPatch {ops : List Step} {op : Step} {key : String}
    {fence : Option String} (h : ReportsNotExecuted sha key fence (run sha ops) op) :
    ∃ index fenceUuid idUuid call request, op = .recoverPatch index fenceUuid idUuid ∧
      (run sha ops).waiting[index]? = some (call, request) ∧ call.key sha = key ∧
      request.admissionFence = fence ∧ .recoverRead call ∈ ops ∧ call.request = some request ∧
      (recoverPatch sha call request fenceUuid idUuid (run sha ops).rows).2 =
        .ok (some .notExecuted) := by
  obtain ⟨call, request, hanswer, hkey, hrequest, hfence⟩ := h
  cases op with
  | queue queued => cases hanswer
  | recoverRead read =>
    have houtcome := recoverRead_outcome sha read (run sha ops).rows
    simp only [step] at hanswer
    generalize recoverRead sha read (run sha ops).rows = outcome at houtcome hanswer
    cases houtcome with
    | patch hpatch => cases hanswer
    | _ => simp at hanswer
  | recoverPatch index fenceUuid idUuid =>
    cases hwaiting : (run sha ops).waiting[index]? with
    | none =>
      simp only [step, hwaiting] at hanswer
      cases hanswer
    | some pair =>
      obtain ⟨held, heldRequest⟩ := pair
      simp only [step, hwaiting, Answer.recovered.injEq] at hanswer
      obtain ⟨rfl, hresult⟩ := hanswer
      obtain ⟨hheld, hread⟩ := waiting_read ops held heldRequest (List.mem_of_getElem? hwaiting)
      obtain rfl := Option.some.inj (hheld.symm.trans hrequest)
      exact ⟨index, fenceUuid, idUuid, held, heldRequest, rfl, hwaiting, hkey, hfence, hread,
        hheld, hresult⟩

/-- **A reported attempt stays fenced.**  In a run whose fence draws are fresh, an attempt
that was reported as not executed is fenced at the end, and its fence was carried. -/
theorem reported_fenced {ops : List Step} (hfresh : FreshDraws ops) {key : String}
    {fence : Option String}
    (h : Runs.Since (step sha) (ReportsNotExecuted sha key fence) (fun _ => False) emptyStore
      ops) :
    Fenced (run sha ops).rows key fence ∧
      ∀ uuid, fence = some uuid → ∃ op ∈ ops, carriedFence op = some uuid := by
  induction ops using List.reverseRecOn with
  | nil => exact (Runs.not_since_nil (step sha) _ _ emptyStore h).elim
  | append_singleton ops op ih =>
    rw [run_concat]
    rcases (Runs.since_concat ..).mp h with hmade | ⟨hsince, -⟩
    · obtain ⟨index, fenceUuid, idUuid, call, request, rfl, hwaiting, rfl, rfl, hread,
        hrequest, hresult⟩ := reports_recoverPatch hmade
      have hcarried : carriedFence (.recoverRead call) = request.admissionFence := by
        simp [carriedFence, hrequest]
      constructor
      · simp only [step, hwaiting]
        refine fenced_of_notExecuted ?_ hresult
        rw [← hcarried]
        exact hfresh ops index fenceUuid idUuid [] rfl _ hread
      · intro uuid huuid
        exact ⟨_, List.mem_append_left _ hread, hcarried.trans huuid⟩
    · obtain ⟨hfenced, hcarried⟩ := ih hfresh.front hsince
      constructor
      · cases op with
        | queue call => exact fenced_queueSeatMessage call hfenced
        | recoverRead call =>
          simp only [step]
          split
          · exact hfenced
          · exact hfenced
        | recoverPatch index fenceUuid idUuid =>
          simp only [step]
          split
          · refine fenced_recoverPatch ?_ _ _ idUuid hfenced
            intro hsame
            obtain ⟨earlier, hearlier, hfence⟩ := hcarried fenceUuid hsame
            exact hfresh ops index fenceUuid idUuid [] rfl earlier hearlier hfence
          · exact hfenced
      · intro uuid huuid
        obtain ⟨earlier, hearlier, hfence⟩ := hcarried uuid huuid
        exact ⟨earlier, List.mem_append_left _ hearlier, hfence⟩

/-! ### Conflicting payloads -/

section Conflicts

variable {store : Store} {row : Row}

theorem queue_conflict {call : QueueCall} (hrow : store.rows.get? (call.key sha) = some row)
    (hdigest : row.digest ≠ call.digest sha) :
    ∃ refusal, step sha store (.queue call) = (store, .queued (.error refusal)) := by
  simp only [step, queueSeatMessage]
  cases textRefusal call.text with
  | some refusal => exact ⟨refusal, rfl⟩
  | none =>
    simp only [hrow, if_pos hdigest]
    exact ⟨_, rfl⟩

theorem recoverRead_conflict {call : RecoverCall} {request : RecoverRequest}
    (hrequest : call.request = some request)
    (hrow : store.rows.get? (call.key sha) = some row)
    (hdigest : row.digest ≠ request.digest sha call.canonicalProject) :
    step sha store (.recoverRead call) =
      (store, .recovered call (.error recoveryConflict)) := by
  have hconflict : call.request.any
      (fun request => row.digest ≠ request.digest sha call.canonicalProject) = true := by
    simp [hrequest, hdigest]
  simp only [step, recoverRead, hrow, if_pos hconflict]

theorem recoverPatch_conflict {index : Nat} {call : RecoverCall} {request : RecoverRequest}
    (hwaiting : store.waiting[index]? = some (call, request))
    (hrow : store.rows.get? (call.key sha) = some row)
    (hdigest : row.digest ≠ request.digest sha call.canonicalProject)
    (fenceUuid idUuid : String) :
    (step sha store (.recoverPatch index fenceUuid idUuid)).2 =
        .recovered call (.error recoveryConflict) ∧
      (step sha store (.recoverPatch index fenceUuid idUuid)).1.rows = store.rows := by
  have hcall : recoverPatch sha call request fenceUuid idUuid store.rows =
      (store.rows, .error recoveryConflict) := by
    simp only [recoverPatch, hrow, if_pos hdigest]
  constructor
  · simp only [step, hwaiting, hcall]
  · simp only [step, hwaiting, hcall]

end Conflicts

/-! ### The contract -/

/-- **The fence of a seat message.**  In a run with fresh draws: after a recovery reported
an attempt as not executed, no call with the attempt's fence queues a row under its key;
a key has one row, and one message id for ever; and a call whose payload contradicts the
recorded digest is refused and changes no record. -/
theorem seat_message_fence (sha : String → String) (ops : List Step)
    (hfresh : FreshDraws ops) :
    (∀ pre op mid call post key fence, ops = pre ++ op :: mid ++ .queue call :: post →
      ReportsNotExecuted sha key fence (run sha pre) op → call.key sha = key →
      call.admissionFence = fence → ¬ Queues sha call (run sha (pre ++ op :: mid)).rows) ∧
    ((∀ row ∈ (run sha ops).rows.rows, ∀ other ∈ (run sha ops).rows.rows,
        row.key = other.key → row = other) ∧
      ∀ pre post, ops = pre ++ post → ∀ row ∈ (run sha pre).rows.rows,
        ∀ later ∈ (run sha ops).rows.rows, later.key = row.key → later.id = row.id) ∧
    (∀ row ∈ (run sha ops).rows.rows,
      (∀ call : QueueCall, call.key sha = row.key → row.digest ≠ call.digest sha →
        ∃ refusal, step sha (run sha ops) (.queue call) =
          (run sha ops, .queued (.error refusal))) ∧
      (∀ (call : RecoverCall) request, call.key sha = row.key → call.request = some request →
        row.digest ≠ request.digest sha call.canonicalProject →
        step sha (run sha ops) (.recoverRead call) =
          (run sha ops, .recovered call (.error recoveryConflict))) ∧
      (∀ index fenceUuid idUuid (call : RecoverCall) request,
        (run sha ops).waiting[index]? = some (call, request) → call.key sha = row.key →
        row.digest ≠ request.digest sha call.canonicalProject →
        (step sha (run sha ops) (.recoverPatch index fenceUuid idUuid)).2 =
            .recovered call (.error recoveryConflict) ∧
          (step sha (run sha ops) (.recoverPatch index fenceUuid idUuid)).1.rows =
            (run sha ops).rows)) := by
  refine ⟨?_, ⟨fun row hrow other hother => Table.eq_of_key_eq _ hrow hother, ?_⟩, ?_⟩
  · rintro pre op mid call post key fence rfl hreports rfl rfl
    have hfront : FreshDraws (pre ++ op :: mid) := by
      rintro front index fenceUuid idUuid back heq
      exact hfresh front index fenceUuid idUuid (back ++ .queue call :: post) (by simp [heq])
    have hsince : Runs.Since (step sha)
        (ReportsNotExecuted sha (call.key sha) call.admissionFence) (fun _ => False) emptyStore
        (pre ++ op :: mid) := ⟨pre, op, mid, rfl, hreports, fun _ _ => not_false⟩
    exact not_queues_of_fenced (reported_fenced hfront hsince).1
  · rintro pre post rfl row hrow later hlater hkey
    obtain ⟨kept, hkept, hid, -⟩ := keeps_run sha pre post row.key row
      (Table.get?_eq_some.mpr ⟨hrow, rfl⟩)
    obtain ⟨hmem, hkeptKey⟩ := Table.get?_eq_some.mp hkept
    rw [Table.eq_of_key_eq _ hlater hmem (hkey.trans hkeptKey.symm)]
    exact hid
  · intro row hrow
    have hget : ∀ key, key = row.key → (run sha ops).rows.get? key = some row := by
      rintro key rfl
      exact Table.get?_eq_some.mpr ⟨hrow, rfl⟩
    refine ⟨?_, ?_, ?_⟩
    · intro call hkey hdigest
      exact queue_conflict (hget _ hkey) hdigest
    · intro call request hkey hrequest hdigest
      exact recoverRead_conflict hrequest (hget _ hkey) hdigest
    · intro index fenceUuid idUuid call request hwaiting hkey hdigest
      exact recoverPatch_conflict hwaiting (hget _ hkey) hdigest fenceUuid idUuid

/-! ### An attempt recovered before it arrived -/

/-- An attempt without a fence, recovered a minute after it was claimed. -/
def lateRecovery : RecoverCall where
  install := "install"
  clientMessageId := "message"
  request := some ⟨"project", "hello", "seat", some 0, none, none⟩
  canonicalProject := fun project => project
  now := 60000

def lateAttempt : QueueCall where
  link := ⟨"install", "laptop", "link"⟩
  project := "project"
  text := "hello"
  seatConversationId := "seat"
  clientMessageId := "message"
  admissionFence := none
  canonicalProject := fun project => project
  now := 61000
  uuid := "id-2"

/-- The attempt arrives after its recovery was reported, and is not queued. -/
theorem seat_message_fence_late :
    ¬ Queues (fun text => text) lateAttempt
      (run (fun text => text) [.recoverRead lateRecovery, .recoverPatch 0 "fence" "id"]).rows := by
  have hfresh : FreshDraws
      [.recoverRead lateRecovery, .recoverPatch 0 "fence" "id", .queue lateAttempt] := by
    intro pre index fenceUuid idUuid post heq op hop
    rcases pre with _ | ⟨first, _ | ⟨second, pre⟩⟩
    · simp at hop
    · simp only [List.cons_append, List.nil_append, List.cons.injEq] at heq
      obtain ⟨rfl, -⟩ := heq
      rw [List.mem_singleton.mp hop]
      simp [carriedFence, lateRecovery]
    · rcases pre with _ | ⟨third, pre⟩
      · simp at heq
      · simp at heq
  refine (seat_message_fence (fun text => text) _ hfresh).1 [.recoverRead lateRecovery]
    (.recoverPatch 0 "fence" "id") [] lateAttempt [] _ _ rfl ?_ rfl rfl
  exact ⟨lateRecovery, ⟨"project", "hello", "seat", some 0, none, none⟩, rfl, rfl, rfl, rfl⟩

end Delegatus.SeatMessages
