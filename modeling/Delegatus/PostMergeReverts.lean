import Delegatus.PostMergeRecovery

/-!
# One revert for a red main

`Ledger` is what the promises of the recovery are about: the receipt in the stored record, and the
revert's way through GitHub.  Each awaited call of a run is one turn of it (`turn`), and the
turns keep `Sound`: one mutation is sent at most, and only by the run that wrote the submission.

`resolveRecovery` reads the recovery, and the `mutate` that retires it does not look again whether a
revert was submitted meanwhile.  A run whose retirement finds another run's submission resolves the
recovery over an open revert (`resolved_over_submission`).  In a run of the system without such a
retirement the recovery reverts once and leaves nothing open (`recovery_reverts_once`).
-/

namespace Delegatus.PostMerge

open Refusals

/-! ### The receipt and the revert -/

structure Receipt where
  firstRedAt : Int
  submitted : Bool
  resolved : Bool
  revertPr : Option ℕ

structure Ledger where
  receipt : Option Receipt
  /-- How many mutations were sent, and how many of them GitHub has not carried out. -/
  sent : ℕ
  pending : ℕ
  /-- The pull requests that GitHub made. -/
  made : List ℕ
  closed : List ℕ

def MergeRecovery.receipt (recovery : MergeRecovery) : Receipt where
  firstRedAt := recovery.firstRedAt
  submitted := recovery.revertSubmittedAt.isSome
  resolved := recovery.resolvedAt.isSome
  revertPr := recovery.revertPr

def World.ledger (w : World) : Ledger where
  receipt := w.merge.recovery.map MergeRecovery.receipt
  sent := w.sent.length
  pending := w.pending.length
  made := w.opened.map Prod.snd
  closed := w.closed

namespace Ledger

/-- Each mutation makes one pull request at most, and none is sent before the submission is
recorded.  The recorded number is that of a pull request that GitHub made. -/
structure Sound (v : Ledger) : Prop where
  once : v.sent ≤ 1
  carried : v.pending + v.made.length ≤ v.sent
  submitted : 0 < v.sent → ∃ receipt, v.receipt = some receipt ∧ receipt.submitted = true
  recorded : ∀ receipt number, v.receipt = some receipt → receipt.revertPr = some number →
    number ∈ v.made

/-- GitHub made one pull request at most. -/
theorem Sound.unique {v : Ledger} (h : v.Sound) {a b : ℕ} (ha : a ∈ v.made) (hb : b ∈ v.made) :
    a = b := by
  have hlength : v.made.length ≤ 1 := by
    have honce := h.once
    have hcarried := h.carried
    omega
  match hmade : v.made with
  | [] => simp [hmade] at ha
  | [number] => simp_all
  | _ :: _ :: _ => simp [hmade] at hlength

/-- A pull request was made for a recorded submission. -/
theorem Sound.submission {v : Ledger} (h : v.Sound) {number : ℕ} (hmade : number ∈ v.made) :
    0 < v.sent ∧ ∃ receipt, v.receipt = some receipt ∧ receipt.submitted = true := by
  have hsent : 0 < v.sent := by
    have hcarried := h.carried
    have hlength := List.length_pos_of_mem hmade
    omega
  exact ⟨hsent, h.submitted hsent⟩

/-- What no turn takes back. -/
structure After (v w : Ledger) : Prop where
  receipt : ∀ earlier, v.receipt = some earlier → ∃ later, w.receipt = some later ∧
    later.firstRedAt = earlier.firstRedAt ∧
    (earlier.submitted = true → later.submitted = true) ∧
    (earlier.resolved = true → later.resolved = true) ∧
    ∀ number, earlier.revertPr = some number → later.revertPr = some number
  made : ∀ number ∈ v.made, number ∈ w.made
  closed : ∀ number ∈ v.closed, number ∈ w.closed

theorem After.refl (v : Ledger) : After v v :=
  ⟨fun earlier h => ⟨earlier, h, rfl, id, id, fun _ => id⟩, fun _ => id, fun _ => id⟩

/-- The recovery was first red at `time`. -/
def Dated (v : Ledger) (time : Int) : Prop :=
  ∃ receipt, v.receipt = some receipt ∧ receipt.firstRedAt = time

def Submitted (v : Ledger) : Prop :=
  ∃ receipt, v.receipt = some receipt ∧ receipt.submitted = true

/-- The recovery is resolved, or has the number. -/
def Recorded (v : Ledger) (number : ℕ) : Prop :=
  ∃ receipt, v.receipt = some receipt ∧ (receipt.resolved = true ∨ receipt.revertPr = some number)

theorem After.dated {v w : Ledger} (h : After v w) {time : Int} : v.Dated time → w.Dated time := by
  rintro ⟨earlier, hearlier, rfl⟩
  obtain ⟨later, hlater, hfirst, -⟩ := h.receipt earlier hearlier
  exact ⟨later, hlater, hfirst⟩

theorem After.submitted {v w : Ledger} (h : After v w) : v.Submitted → w.Submitted := by
  rintro ⟨earlier, hearlier, hsubmitted⟩
  obtain ⟨later, hlater, -, hkept, -⟩ := h.receipt earlier hearlier
  exact ⟨later, hlater, hkept hsubmitted⟩

theorem After.recorded {v w : Ledger} (h : After v w) {number : ℕ} :
    v.Recorded number → w.Recorded number := by
  rintro ⟨earlier, hearlier, hrecorded⟩
  obtain ⟨later, hlater, -, -, hresolved, hnumber⟩ := h.receipt earlier hearlier
  exact ⟨later, hlater, hrecorded.imp hresolved (hnumber number)⟩

/-- Whenever the recovery is resolved and a revert was submitted, the revert's number is recorded
and it is closed. -/
def Settled (v : Ledger) : Prop :=
  ∀ receipt, v.receipt = some receipt → receipt.resolved = true → receipt.submitted = true →
    ∃ number, receipt.revertPr = some number ∧ number ∈ v.closed

end Ledger

/-- The run sends the mutation next. -/
def Phase.Writing : Phase → Prop
  | .writing _ _ => True
  | _ => False

/-- What a run knows about the ledger. -/
def Knows (v : Ledger) : Phase → Prop
  | .admitting source | .receipt source | .recordReceipt source _ | .claiming source
  | .readMain source => ∀ recovery, source.recovery = some recovery → v.Dated recovery.firstRedAt
  | .creating _ recovery | .recordFix _ recovery _ | .limiting _ recovery | .readAgain _ recovery
  | .listing _ recovery _ | .original _ recovery | .claim _ recovery => v.Dated recovery.firstRedAt
  | .writing _ recovery => v.Dated recovery.firstRedAt ∧ v.Submitted
  | .reserving _ reservation => reservation.receipt = ⟨reservation.firstRedAt, false, false, none⟩
  | .recordPr number | .recordReconciled number => number ∈ v.made
  | .closing number => number ∈ v.made ∧ v.Recorded number
  | .resolving (some number) => number ∈ v.made ∧ v.Recorded number ∧ number ∈ v.closed
  | _ => True

/-- What a run knows stays true. -/
theorem Knows.after {v w : Ledger} {phase : Phase} (h : v.After w) (hknows : Knows v phase) :
    Knows w phase := by
  cases phase with
  | admitting source | receipt source | recordReceipt source _ | claiming source
  | readMain source => exact fun recovery hrecovery => h.dated (hknows recovery hrecovery)
  | creating _ recovery | recordFix _ recovery _ | limiting _ recovery | readAgain _ recovery
  | listing _ recovery _ | original _ recovery | claim _ recovery => exact h.dated hknows
  | writing _ recovery => exact ⟨h.dated hknows.1, h.submitted hknows.2⟩
  | reserving _ reservation => exact hknows
  | recordPr number | recordReconciled number => exact h.made number hknows
  | closing number => exact ⟨h.made number hknows.1, h.recorded hknows.2⟩
  | resolving held =>
    cases held with
    | none => trivial
    | some number =>
      exact ⟨h.made number hknows.1, h.recorded hknows.2.1, h.closed number hknows.2.2⟩
  | _ => trivial

/-! ### Turns -/

/-- What one awaited call of a run does to the ledger. -/
inductive Turn (v : Ledger) : Phase → Ledger → Phase → Prop
  | stay {phase next : Phase} (hknows : Knows v next) (hwriting : ¬next.Writing) :
      Turn v phase v next
  | reserve {source : Merge} {reservation : MergeRecovery} (hnone : v.receipt = none) :
      Turn v (.reserving source reservation)
        { v with receipt := some ⟨reservation.firstRedAt, false, false, none⟩ } (.rereading source)
  | submit {current : Merge} {recovery : MergeRecovery} (receipt : Receipt)
      (hreceipt : v.receipt = some receipt) (hunsubmitted : receipt.submitted = false)
      (hopen : receipt.resolved = false) :
      Turn v (.claim current recovery) { v with receipt := some { receipt with submitted := true } }
        (.writing current recovery)
  | send {current : Merge} {recovery : MergeRecovery} :
      Turn v (.writing current recovery) { v with sent := v.sent + 1, pending := v.pending + 1 }
        (.responding current)
  | record {phase next : Phase} (receipt : Receipt) (number : ℕ) (hreceipt : v.receipt = some receipt)
      (hmade : number ∈ v.made) (hnext : next = .done ∨ next = .closing number) :
      Turn v phase { v with receipt := some { receipt with revertPr := some number } } next
  | close (number : ℕ) :
      Turn v (.closing number) { v with closed := number :: v.closed } (.resolving (some number))
  | resolve {held : Option ℕ} (receipt : Receipt) (hreceipt : v.receipt = some receipt)
      (hopen : receipt.resolved = false) :
      Turn v (.resolving held) { v with receipt := some { receipt with resolved := true } } .done

variable (redactBounded : String → ℕ → String)

theorem dated_of_stored {w : World} {recovery : MergeRecovery}
    (h : w.merge.recovery = some recovery) : w.ledger.Dated recovery.firstRedAt :=
  ⟨recovery.receipt, by simp [World.ledger, h], rfl⟩

theorem turn_resolveRecovery {w : World} (h : w.ledger.Sound) (phase : Phase) (key : Key) :
    Turn w.ledger phase w.ledger (resolveRecovery key w.merge) := by
  unfold resolveRecovery
  split
  · exact .stay trivial not_false
  · next recovery hrecovery =>
    have hreceipt : w.ledger.receipt = some recovery.receipt := by simp [World.ledger, hrecovery]
    split
    · exact .stay trivial not_false
    · split
      · next number hnumber =>
        exact .stay ⟨h.recorded _ number hreceipt hnumber, _, hreceipt, Or.inr hnumber⟩ not_false
      · split
        · exact .stay trivial not_false
        · exact .stay trivial not_false

theorem turn_proceed {w : World} (phase : Phase) (source : Merge) {recovery : Option MergeRecovery}
    (h : ∀ known, recovery = some known → w.ledger.Dated known.firstRedAt) :
    Turn w.ledger phase w.ledger (proceed source recovery) := by
  unfold proceed
  split
  · exact .stay trivial not_false
  · next known =>
    split
    · exact .stay trivial not_false
    · split
      · exact .stay (h known rfl) not_false
      · exact .stay (h known rfl) not_false

theorem turn_judgeLanded {w : World} (phase : Phase) (source : Merge) (landed parent : CommitChecks)
    (now : Int) : Turn w.ledger phase w.ledger (judgeLanded redactBounded source landed parent now) := by
  unfold judgeLanded
  dsimp only
  split
  · split
    · exact .stay trivial not_false
    · exact .stay trivial not_false
  · split
    · exact .stay trivial not_false
    · exact .stay rfl not_false

/-- A `mutate` of the recovery either writes it, or finds none that it may write. -/
theorem ledger_amend (w : World) (allow : MergeRecovery → Bool)
    (change : MergeRecovery → MergeRecovery) :
    ((∀ live, w.merge.recovery = some live → allow live = false) ∧
      (w.amend allow change).ledger = w.ledger) ∨
    ∃ live, w.merge.recovery = some live ∧ allow live = true ∧
      (w.amend allow change).ledger = { w.ledger with receipt := some (change live).receipt } := by
  unfold World.amend World.store World.ledger
  cases hrecovery : w.merge.recovery with
  | none => exact Or.inl ⟨by simp, by simp [hrecovery]⟩
  | some live =>
    by_cases hallow : allow live = true
    · exact Or.inr ⟨live, rfl, hallow, by simp [hrecovery, hallow]⟩
    · refine Or.inl ⟨?_, by simp [hrecovery, hallow]⟩
      rintro other heq
      obtain rfl := Option.some.inj heq
      simpa using hallow

theorem turn_recordFix {w : World} {source : Merge} {recovery : MergeRecovery} {id : String}
    (hknows : w.ledger.Dated recovery.firstRedAt) :
    Turn w.ledger (.recordFix source recovery id)
      (w.amend (fun live => live.fixPipelineId.isNone) fun live =>
        { live with fixPipelineId := some id }).ledger (.limiting source recovery) := by
  rcases ledger_amend w (fun live => live.fixPipelineId.isNone)
    (fun live => { live with fixPipelineId := some id }) with ⟨-, hsame⟩ | ⟨live, hlive, -, heq⟩
  · rw [hsame]
    exact .stay hknows not_false
  · have hsame : w.ledger.receipt = some live.receipt := by simp [World.ledger, hlive]
    have hreceipt : { w.ledger with receipt := some live.receipt } = w.ledger := by
      rw [← hsame]
    rw [heq, show MergeRecovery.receipt { live with fixPipelineId := some id } = live.receipt from rfl,
      hreceipt]
    exact .stay hknows not_false

/-- A run that was refused the number of a revert finds the recovery resolved. -/
theorem turn_recordReconciled {w : World} (h : w.ledger.Sound) {number : ℕ}
    (hmade : number ∈ w.ledger.made) :
    Turn w.ledger (.recordReconciled number)
      (w.amend (fun live => live.resolvedAt.isNone) fun live => { live with revertPr := some number }).ledger
      (.closing number) := by
  rcases ledger_amend w (fun live => live.resolvedAt.isNone) (fun live => { live with revertPr := some number }) with
    ⟨hrefused, hsame⟩ | ⟨live, hlive, -, heq⟩
  · rw [hsame]
    obtain ⟨-, receipt, hreceipt, -⟩ := h.submission hmade
    obtain ⟨live, hlive, rfl⟩ := Option.map_eq_some_iff.mp hreceipt
    have hresolved : live.receipt.resolved = true := by
      simpa [MergeRecovery.receipt, Option.isSome_iff_ne_none] using hrefused live hlive
    exact .stay ⟨hmade, live.receipt, hreceipt, Or.inl hresolved⟩ not_false
  · rw [heq]
    exact .record live.receipt number (by simp [World.ledger, hlive]) hmade (Or.inr rfl)

theorem turn_recordPr {w : World} {number : ℕ} (hmade : number ∈ w.ledger.made) :
    Turn w.ledger (.recordPr number)
      (w.amend (fun live => live.revertPr.isNone) fun live => { live with revertPr := some number }).ledger
      .done := by
  rcases ledger_amend w (fun live => live.revertPr.isNone) (fun live => { live with revertPr := some number }) with
    ⟨-, hsame⟩ | ⟨live, hlive, -, heq⟩
  · rw [hsame]
    exact .stay trivial not_false
  · rw [heq]
    exact .record live.receipt number (by simp [World.ledger, hlive]) hmade (Or.inl rfl)

theorem turn_resolving {w : World} {held : Option ℕ} (now : Int) :
    Turn w.ledger (.resolving held)
      (w.amend (fun live => live.resolvedAt.isNone) fun live => { live with resolvedAt := some now }).ledger
      .done := by
  rcases ledger_amend w (fun live => live.resolvedAt.isNone) (fun live => { live with resolvedAt := some now }) with
    ⟨-, hsame⟩ | ⟨live, hlive, hallow, heq⟩
  · rw [hsame]
    exact .stay trivial not_false
  · rw [heq]
    exact .resolve live.receipt (by simp [World.ledger, hlive])
      (by simpa [MergeRecovery.receipt] using hallow)

theorem made_of_opened {w : World} {key : Key} {number : ℕ} (h : (key, number) ∈ w.opened) :
    number ∈ w.ledger.made :=
  List.mem_map.mpr ⟨(key, number), h, rfl⟩

/-- The turn that an awaited call took, if it was the one that the run awaits. -/
def Turns (v : Ledger) (phase : Phase) : Except Unit (World × Phase) → Prop
  | .ok (w, next) => Turn v phase w.ledger next
  | .error _ => True

/-- **What an awaited call does**: each step of the source is a turn of the ledger. -/
theorem turns {w : World} (call : Call) {phase : Phase} (h : w.ledger.Sound)
    (hknows : Knows w.ledger phase) :
    Turns w.ledger phase (recoverPostMerge redactBounded w call phase) := by
  unfold recoverPostMerge
  split
  -- The admission: the snapshot is the stored record, and only `nextReadAt` changes.
  case h_1 =>
    exact .stay (fun recovery hrecovery => dated_of_stored hrecovery) not_false
  case h_2 now source =>
    split
    · exact .stay trivial not_false
    · split
      · exact .stay hknows not_false
      · exact .stay hknows not_false
  case h_3 sha source =>
    split
    · exact .stay trivial not_false
    · exact .stay hknows not_false
  case h_4 source sha =>
    split
    · exact .stay trivial not_false
    · exact .stay hknows not_false
  case h_5 granted source =>
    split
    · exact .stay hknows not_false
    · exact .stay trivial not_false
  case h_6 main _ source =>
    split
    · next recovery hrecovery =>
      split
      · exact turn_resolveRecovery h _ _
      · refine turn_proceed _ _ fun known hknown => ?_
        obtain rfl := Option.some.inj hknown
        exact hknows recovery hrecovery
    · exact .stay trivial not_false
  case h_7 landed _ source =>
    split
    · exact .stay trivial not_false
    · exact .stay trivial not_false
  case h_8 now source =>
    split
    · exact .stay trivial not_false
    · exact .stay trivial not_false
  case h_9 parent now source landed =>
    exact turn_judgeLanded redactBounded _ source landed parent now
  case h_10 =>
    exact .stay trivial not_false
  case h_11 source reservation =>
    split
    · next hfree =>
      have hnone : w.merge.recovery = none := by simpa using hfree.2
      have hfresh : reservation.receipt = ⟨reservation.firstRedAt, false, false, none⟩ := hknows
      have hledger : (w.store (reserve reservation)).ledger =
          { w.ledger with receipt := some ⟨reservation.firstRedAt, false, false, none⟩ } := by
        rw [← hfresh]
        exact rfl
      rw [Turns, hledger]
      exact .reserve (by simp [World.ledger, hnone])
    · exact .stay trivial not_false
  case h_12 source =>
    exact turn_proceed _ _ fun known hknown => dated_of_stored hknown
  case h_13 id source recovery =>
    split
    · exact .stay hknows not_false
    · exact .stay hknows not_false
  case h_14 =>
    exact .stay hknows not_false
  case h_15 source recovery id =>
    exact turn_recordFix hknows
  case h_16 =>
    exact .stay hknows not_false
  case h_17 now source recovery =>
    split
    · exact .stay hknows not_false
    · exact .stay trivial not_false
  case h_18 main _ source recovery =>
    split
    · exact turn_resolveRecovery h _ _
    · exact .stay hknows not_false
  case h_19 existing current recovery reconcileOnly =>
    split
    · next number =>
      split
      · next hopened =>
        exact .stay (made_of_opened hopened) not_false
      · trivial
    · split
      · exact .stay trivial not_false
      · exact .stay hknows not_false
  case h_20 =>
    exact .stay hknows not_false
  case h_21 now current recovery =>
    split
    · exact .stay trivial not_false
    · next live hlive =>
      split
      · exact .stay trivial not_false
      · next hfree =>
        simp only [Bool.or_eq_true, not_or, Bool.not_eq_true] at hfree
        exact .submit live.receipt (by simp [World.ledger, hlive]) hfree.1 hfree.2
  case h_22 current recovery =>
    exact .send
  case h_23 number current =>
    split
    · next hopened =>
      exact .stay (made_of_opened hopened) not_false
    · trivial
  case h_24 number =>
    exact turn_recordPr hknows
  case h_25 existing key =>
    split
    · split
      · next hopened =>
        exact .stay (made_of_opened hopened) not_false
      · trivial
    · exact .stay trivial not_false
  case h_26 number =>
    exact turn_recordReconciled h hknows
  case h_27 number =>
    exact .close number
  case h_28 now held =>
    exact turn_resolving now
  case h_29 =>
    exact .stay trivial not_false
  case h_30 => trivial

/-! ### What turns keep -/

namespace Turn

variable {v w : Ledger} {phase next : Phase}

theorem after (h : v.Sound) (hturn : Turn v phase w next) : v.After w := by
  have hkept : ∀ receipt later : Receipt, v.receipt = some receipt →
      later.firstRedAt = receipt.firstRedAt → (receipt.submitted = true → later.submitted = true) →
      (receipt.resolved = true → later.resolved = true) →
      (∀ number, receipt.revertPr = some number → later.revertPr = some number) →
      v.After { v with receipt := some later } := by
    intro receipt later hreceipt hfirst hsubmitted hresolved hnumber
    refine ⟨fun earlier hearlier => ?_, fun _ => id, fun _ => id⟩
    obtain rfl := Option.some.inj (hreceipt.symm.trans hearlier)
    exact ⟨later, rfl, hfirst, hsubmitted, hresolved, hnumber⟩
  cases hturn with
  | stay => exact .refl v
  | reserve hnone =>
    refine ⟨fun earlier hearlier => ?_, fun _ => id, fun _ => id⟩
    rw [hnone] at hearlier
    contradiction
  | submit receipt hreceipt => exact hkept receipt _ hreceipt rfl (fun _ => rfl) id fun _ => id
  | send => exact ⟨fun earlier h => ⟨earlier, h, rfl, id, id, fun _ => id⟩, fun _ => id, fun _ => id⟩
  | record receipt number hreceipt hmade =>
    refine hkept receipt _ hreceipt rfl id id fun other hother => ?_
    exact congrArg some (h.unique hmade (h.recorded receipt other hreceipt hother))
  | close number =>
    exact ⟨fun earlier h => ⟨earlier, h, rfl, id, id, fun _ => id⟩, fun _ => id,
      fun _ => List.mem_cons_of_mem _⟩
  | resolve receipt hreceipt => exact hkept receipt _ hreceipt rfl id (fun _ => rfl) fun _ => id

theorem sound (h : v.Sound) (hknows : Knows v phase) (hunsent : phase.Writing → v.sent = 0)
    (hturn : Turn v phase w next) : w.Sound := by
  have hlater := hturn.after h
  have hsubmitted : v.sent = w.sent → 0 < w.sent → w.Submitted :=
    fun hsame hsent => hlater.submitted (h.submitted (hsame ▸ hsent))
  cases hturn with
  | stay => exact h
  | reserve hnone =>
    refine ⟨h.once, h.carried, hsubmitted rfl, fun receipt number hreceipt hnumber => ?_⟩
    obtain rfl := Option.some.inj hreceipt
    contradiction
  | submit receipt hreceipt =>
    refine ⟨h.once, h.carried, hsubmitted rfl, fun later number hlater hnumber => ?_⟩
    obtain rfl := Option.some.inj hlater
    exact h.recorded receipt number hreceipt hnumber
  | send =>
    have hnone : v.sent = 0 := hunsent trivial
    have hcarried := h.carried
    exact ⟨by simp [hnone], by simp only; omega, fun _ => hlater.submitted hknows.2, h.recorded⟩
  | record receipt number hreceipt hmade =>
    refine ⟨h.once, h.carried, hsubmitted rfl, fun later other hlater hother => ?_⟩
    obtain rfl := Option.some.inj hlater
    exact Option.some.inj hother ▸ hmade
  | close number => exact ⟨h.once, h.carried, h.submitted, h.recorded⟩
  | resolve receipt hreceipt =>
    refine ⟨h.once, h.carried, hsubmitted rfl, fun later number hlater hnumber => ?_⟩
    obtain rfl := Option.some.inj hlater
    exact h.recorded receipt number hreceipt hnumber

theorem knows (h : v.Sound) (hknows : Knows v phase) (hturn : Turn v phase w next) : Knows w next := by
  have hlater := hturn.after h
  cases hturn with
  | stay hnext => exact hnext
  | reserve => trivial
  | submit receipt hreceipt => exact ⟨hlater.dated hknows, _, rfl, rfl⟩
  | send => trivial
  | record receipt number hreceipt hmade hnext =>
    rcases hnext with rfl | rfl
    · trivial
    · exact ⟨hmade, _, rfl, Or.inr rfl⟩
  | close number => exact ⟨hknows.1, hlater.recorded hknows.2, List.mem_cons_self⟩
  | resolve => trivial

/-- Only the run that records the submission goes on to send the mutation. -/
theorem submits (hturn : Turn v phase w next) (hwriting : next.Writing) :
    ¬v.Submitted ∧ w.sent = v.sent ∧
      ∀ receipt, w.receipt = some receipt → receipt.resolved = false := by
  cases hturn with
  | stay _ hnot => exact absurd hwriting hnot
  | submit receipt hreceipt hunsubmitted hopen =>
    refine ⟨?_, rfl, ?_⟩
    · rintro ⟨other, hother, hsubmitted⟩
      obtain rfl := Option.some.inj (hreceipt.symm.trans hother)
      rw [hunsubmitted] at hsubmitted
      contradiction
    · rintro later hlater
      obtain rfl := Option.some.inj hlater
      exact hopen
  | record receipt number _ _ hnext => rcases hnext with rfl | rfl <;> exact hwriting.elim
  | reserve | send | close | resolve => exact hwriting.elim

/-- Only a run that sends the mutation changes how many were sent. -/
theorem sends (hturn : Turn v phase w next) (hwriting : ¬phase.Writing) : w.sent = v.sent := by
  cases hturn with
  | send => exact absurd trivial hwriting
  | stay | reserve | submit | record | close | resolve => exact rfl

end Turn

variable {κ : Type*}

/-- What holds in every state of the system. -/
structure Sound (s : State κ) : Prop where
  ledger : s.world.ledger.Sound
  knows : ∀ run, Knows s.world.ledger (s.phase run)
  unsent : ∀ run, (s.phase run).Writing → s.world.ledger.sent = 0
  one : ∀ a b, (s.phase a).Writing → (s.phase b).Writing → a = b

theorem sound_initial (merge : Merge) : Sound (initial merge : State κ) where
  ledger := by
    refine ⟨Nat.zero_le _, le_refl _, fun h => absurd h (lt_irrefl _), ?_⟩
    intro receipt number hreceipt
    simp [World.ledger, initial] at hreceipt
  knows _ := trivial
  unsent _ h := h.elim
  one _ _ h := h.elim

/-- A run that sends the mutation has recorded the submission. -/
theorem Sound.submitted {s : State κ} (h : Sound s) {run : κ} (hwriting : (s.phase run).Writing) :
    s.world.ledger.Submitted := by
  have hknows := h.knows run
  cases hphase : s.phase run with
  | writing current recovery =>
    rw [hphase] at hknows
    exact hknows.2
  | _ =>
    rw [hphase] at hwriting
    exact hwriting.elim

variable [DecidableEq κ] {redactBounded}

/-- A call of a run is a turn of the ledger, and changes no other run. -/
theorem Sound.turn {s t : State κ} (h : Sound s) {run : κ} {call : Call}
    (hstep : step redactBounded s (.call run call) = .ok t) :
    ∃ next, t.phase = Function.update s.phase run next ∧
      recoverPostMerge redactBounded s.world call (s.phase run) = .ok (t.world, next) ∧
      Turn s.world.ledger (s.phase run) t.world.ledger next := by
  obtain ⟨⟨world, next⟩, hact, rfl⟩ := map_eq_ok.mp hstep
  have hturn := turns redactBounded call h.ledger (h.knows run)
  rw [hact] at hturn
  exact ⟨next, rfl, hact, hturn⟩

theorem Sound.call {s t : State κ} (h : Sound s) {run : κ} {next : Phase}
    (hphase : t.phase = Function.update s.phase run next)
    (hturn : Turn s.world.ledger (s.phase run) t.world.ledger next) : Sound t := by
  have hlater := hturn.after h.ledger
  have hself : t.phase run = next := by rw [hphase, Function.update_self]
  have hother : ∀ other, other ≠ run → t.phase other = s.phase other := by
    intro other hne
    rw [hphase, Function.update_of_ne hne]
  -- A run that goes on to send is alone: the others would have recorded the submission before.
  have halone : ∀ other, other ≠ run → (s.phase other).Writing → ¬next.Writing :=
    fun other _ hwriting hnext => (hturn.submits hnext).1 (h.submitted hwriting)
  refine ⟨hturn.sound h.ledger (h.knows run) (h.unsent run), ?_, ?_, ?_⟩
  · intro other
    by_cases hne : other = run
    · rw [hne, hself]
      exact hturn.knows h.ledger (h.knows run)
    · rw [hother other hne]
      exact (h.knows other).after hlater
  · intro other hwriting
    by_cases hne : other = run
    · rw [hne, hself] at hwriting
      obtain ⟨hunsubmitted, hsent, -⟩ := hturn.submits hwriting
      rw [hsent]
      exact Nat.eq_zero_of_not_pos fun hpos => hunsubmitted (h.ledger.submitted hpos)
    · rw [hother other hne] at hwriting
      have hnot : ¬(s.phase run).Writing := fun hrun => hne (h.one other run hwriting hrun)
      rw [hturn.sends hnot]
      exact h.unsent other hwriting
  · intro a b ha hb
    by_cases hrunA : a = run
    · by_cases hrunB : b = run
      · rw [hrunA, hrunB]
      · rw [hother b hrunB] at hb
        rw [hrunA, hself] at ha
        exact absurd ha (halone b hrunB hb)
    · rw [hother a hrunA] at ha
      by_cases hrunB : b = run
      · rw [hrunB, hself] at hb
        exact absurd hb (halone a hrunA ha)
      · rw [hother b hrunB] at hb
        exact h.one a b ha hb

theorem Sound.crash {s : State κ} (h : Sound s) (run : κ) :
    Sound { s with phase := Function.update s.phase run .done } :=
  h.call rfl (.stay trivial not_false)

/-- GitHub carries a mutation out. -/
theorem Sound.opens {s t : State κ} (h : Sound s) {key : Key} {number : ℕ}
    (hstep : step redactBounded s (.opens key number) = .ok t) :
    Sound t ∧ s.world.ledger.After t.world.ledger ∧ t.phase = s.phase ∧
      t.world.ledger.receipt = s.world.ledger.receipt ∧ t.world.ledger.closed = s.world.ledger.closed := by
  rw [step] at hstep
  split at hstep
  case isFalse => contradiction
  case isTrue hpending =>
    obtain rfl := Except.ok.inj hstep
    have hlater : s.world.ledger.After
        { s.world.ledger with pending := (s.world.pending.erase key).length,
                              made := s.world.ledger.made ++ [number] } :=
      ⟨fun earlier h => ⟨earlier, h, rfl, id, id, fun _ => id⟩, fun _ => List.mem_append_left _,
        fun _ => id⟩
    have hledger : World.ledger { s.world with pending := s.world.pending.erase key,
                                               opened := s.world.opened ++ [(key, number)] } =
        { s.world.ledger with pending := (s.world.pending.erase key).length,
                              made := s.world.ledger.made ++ [number] } := by
      simp [World.ledger]
    refine ⟨⟨?_, fun run => ?_, h.unsent, h.one⟩, ?_, rfl, rfl, rfl⟩
    · rw [hledger]
      refine ⟨h.ledger.once, ?_, h.ledger.submitted, ?_⟩
      · have hcarried : s.world.pending.length + s.world.ledger.made.length ≤ s.world.ledger.sent :=
          h.ledger.carried
        have hlength := List.length_erase_of_mem hpending
        have hpos := List.length_pos_of_mem hpending
        simp only [List.length_append, List.length_singleton]
        omega
      · exact fun receipt other hreceipt hother =>
          List.mem_append_left _ (h.ledger.recorded receipt other hreceipt hother)
    · rw [hledger]
      exact (h.knows run).after hlater
    · rw [hledger]
      exact hlater

theorem Sound.step {s t : State κ} (h : Sound s) {event : Event κ}
    (hstep : PostMerge.step redactBounded s event = .ok t) :
    Sound t ∧ s.world.ledger.After t.world.ledger := by
  cases event with
  | call run call =>
    obtain ⟨next, hphase, -, hturn⟩ := h.turn hstep
    exact ⟨h.call hphase hturn, hturn.after h.ledger⟩
  | crash run =>
    obtain rfl := Except.ok.inj hstep
    exact ⟨h.crash run, .refl _⟩
  | opens key number =>
    obtain ⟨hsound, hlater, -⟩ := h.opens hstep
    exact ⟨hsound, hlater⟩

/-! ### Retirement -/

/-- The `mutate` that retires the recovery without a revert in hand finds no submission that was
made after `resolveRecovery` read the record, or finds the recovery resolved. -/
def retiresAsRead (s : State κ) : Event κ → Bool
  | .call run (.mutate _) =>
    match s.phase run, s.world.merge.recovery with
    | .resolving none, some recovery =>
      recovery.resolvedAt.isSome || recovery.revertSubmittedAt.isNone
    | _, _ => true
  | _ => true

/-- The recovery leaves nothing open, and is not resolved while a run sends the mutation. -/
structure Careful (s : State κ) : Prop where
  sound : Sound s
  settled : s.world.ledger.Settled
  unresolved : ∀ run, (s.phase run).Writing →
    ∀ receipt, s.world.ledger.receipt = some receipt → receipt.resolved = false

/-- A run that retires the recovery either calls `mutate` or leaves the record as it is. -/
theorem retires {w w' : World} {call : Call} {held : Option ℕ} {next : Phase}
    (hact : recoverPostMerge redactBounded w call (.resolving held) = .ok (w', next)) :
    (∃ now, call = .mutate now) ∨ w' = w := by
  cases call with
  | mutate now => exact Or.inl ⟨now, rfl⟩
  | fail => exact Or.inr (Prod.mk.inj (Except.ok.inj hact)).1.symm
  | _ => contradiction

omit [DecidableEq κ] in
/-- What a retirement finds under `retiresAsRead`. -/
theorem unsubmitted_of_retires {s : State κ} {w' : World} {run : κ} {call : Call} {next : Phase}
    (hread : retiresAsRead s (.call run call) = true) (hphase : s.phase run = .resolving none)
    (hact : recoverPostMerge redactBounded s.world call (s.phase run) = .ok (w', next))
    (hchanged : w'.ledger ≠ s.world.ledger) {receipt : Receipt}
    (hreceipt : s.world.ledger.receipt = some receipt) (hopen : receipt.resolved = false) :
    receipt.submitted = false := by
  rw [hphase] at hact
  rcases retires hact with ⟨now, rfl⟩ | rfl
  · obtain ⟨recovery, hrecovery, rfl⟩ := Option.map_eq_some_iff.mp hreceipt
    simp only [retiresAsRead, hphase, hrecovery, Bool.or_eq_true] at hread
    have hunresolved : recovery.resolvedAt.isSome = false := hopen
    have hnone := hread.resolve_left (by simp [hunresolved])
    simpa [MergeRecovery.receipt] using hnone
  · exact absurd rfl hchanged

theorem ne_of_resolves {v : Ledger} {receipt : Receipt} (h : v.receipt = some receipt)
    (hopen : receipt.resolved = false) :
    { v with receipt := some { receipt with resolved := true } } ≠ v := by
  intro heq
  have hsame := (congrArg Ledger.receipt heq).trans h
  have hflag := congrArg Receipt.resolved (Option.some.inj hsame)
  rw [hopen] at hflag
  contradiction

theorem Turn.settled {v w : Ledger} {phase next : Phase} (h : v.Sound) (hknows : Knows v phase)
    (hsettled : v.Settled)
    (hread : phase = .resolving none → w ≠ v → ∀ receipt, v.receipt = some receipt →
      receipt.resolved = false → receipt.submitted = false)
    (hturn : Turn v phase w next) : w.Settled := by
  intro later hlater hresolved hsubmitted
  cases hturn with
  | stay => exact hsettled later hlater hresolved hsubmitted
  | reserve =>
    obtain rfl := Option.some.inj hlater
    contradiction
  | submit receipt hreceipt hunsubmitted hopen =>
    obtain rfl := Option.some.inj hlater
    rw [hopen] at hresolved
    contradiction
  | send => exact hsettled later hlater hresolved hsubmitted
  | record receipt number hreceipt hmade =>
    obtain rfl := Option.some.inj hlater
    obtain ⟨other, hother, hclosed⟩ := hsettled receipt hreceipt hresolved hsubmitted
    obtain rfl := h.unique hmade (h.recorded receipt other hreceipt hother)
    exact ⟨number, rfl, hclosed⟩
  | close number =>
    obtain ⟨other, hother, hclosed⟩ := hsettled later hlater hresolved hsubmitted
    exact ⟨other, hother, List.mem_cons_of_mem _ hclosed⟩
  | @resolve held receipt hreceipt hopen =>
    obtain rfl := Option.some.inj hlater
    cases held with
    | none =>
      have hunsubmitted := hread rfl (ne_of_resolves hreceipt hopen) receipt hreceipt hopen
      rw [hunsubmitted] at hsubmitted
      contradiction
    | some number =>
      obtain ⟨-, ⟨other, hother, hrecorded⟩, hclosed⟩ := hknows
      obtain rfl := Option.some.inj (hreceipt.symm.trans hother)
      rw [hopen] at hrecorded
      exact ⟨number, hrecorded.resolve_left (by decide), hclosed⟩

/-- A turn resolves the recovery only when no run sends the mutation. -/
theorem Turn.unresolved {v w : Ledger} {phase next : Phase} (h : v.Sound) (hknows : Knows v phase)
    (hread : phase = .resolving none → w ≠ v → ∀ receipt, v.receipt = some receipt →
      receipt.resolved = false → receipt.submitted = false)
    (hsubmitted : v.Submitted) (hunsent : v.sent = 0)
    (hopen : ∀ receipt, v.receipt = some receipt → receipt.resolved = false)
    (hturn : Turn v phase w next) :
    ∀ receipt, w.receipt = some receipt → receipt.resolved = false := by
  intro later hlater
  cases hturn with
  | stay | send | close => exact hopen later hlater
  | reserve =>
    obtain rfl := Option.some.inj hlater
    exact rfl
  | submit receipt hreceipt _ hunresolved =>
    obtain rfl := Option.some.inj hlater
    exact hunresolved
  | record receipt number hreceipt =>
    obtain rfl := Option.some.inj hlater
    exact hopen receipt hreceipt
  | @resolve held receipt hreceipt hunresolved =>
    cases held with
    | none =>
      obtain ⟨other, hother, hflag⟩ := hsubmitted
      obtain rfl := Option.some.inj (hreceipt.symm.trans hother)
      rw [hread rfl (ne_of_resolves hreceipt hunresolved) receipt hreceipt hunresolved] at hflag
      contradiction
    | some number =>
      have hsent := (h.submission hknows.1).1
      omega

theorem Careful.step {s t : State κ} (h : Careful s) {event : Event κ}
    (hread : retiresAsRead s event = true)
    (hstep : PostMerge.step redactBounded s event = .ok t) : Careful t := by
  cases event with
  | call run call =>
    obtain ⟨next, hphase, hact, hturn⟩ := h.sound.turn hstep
    have hfound : s.phase run = .resolving none → t.world.ledger ≠ s.world.ledger →
        ∀ receipt, s.world.ledger.receipt = some receipt → receipt.resolved = false →
          receipt.submitted = false :=
      fun hresolving hchanged receipt hreceipt hopen =>
        unsubmitted_of_retires hread hresolving hact hchanged hreceipt hopen
    refine ⟨h.sound.call hphase hturn,
      hturn.settled h.sound.ledger (h.sound.knows run) h.settled hfound, ?_⟩
    intro other hwriting
    by_cases hne : other = run
    · rw [hne, hphase, Function.update_self] at hwriting
      exact (hturn.submits hwriting).2.2
    · rw [hphase, Function.update_of_ne hne] at hwriting
      exact hturn.unresolved h.sound.ledger (h.sound.knows run) hfound (h.sound.submitted hwriting)
        (h.sound.unsent other hwriting) (h.unresolved other hwriting)
  | crash run =>
    obtain rfl := Except.ok.inj hstep
    refine ⟨h.sound.crash run, h.settled, fun other hwriting => ?_⟩
    by_cases hne : other = run
    · rw [hne] at hwriting
      simp only [Function.update_self] at hwriting
      exact hwriting.elim
    · simp only [Function.update_of_ne hne] at hwriting
      exact h.unresolved other hwriting
  | opens key number =>
    obtain ⟨hsound, -, hphase, hreceipt, hclosed⟩ := h.sound.opens hstep
    refine ⟨hsound, ?_, ?_⟩
    · intro receipt hlater
      rw [hclosed]
      exact h.settled receipt (hreceipt ▸ hlater)
    · intro run hwriting receipt hlater
      rw [hphase] at hwriting
      exact h.unresolved run hwriting receipt (hreceipt ▸ hlater)

omit [DecidableEq κ] in
theorem careful_initial (merge : Merge) : Careful (initial merge : State κ) where
  sound := sound_initial merge
  settled receipt h := by simp [World.ledger, initial] at h
  unresolved _ h := h.elim

/-! ### What a run waited for -/

/-- What the call that led a run of the source to a phase was. -/
def Heard (call : Call) (phase : Phase) : Phase → Prop
  | .readAgain _ recovery => ∃ now, call = .clock now ∧ recovery.firstRedAt + RED_MAIN_LIMIT_MS ≤ now
  | .listing _ recovery _ => ∃ main now source,
      call = .read main now ∧ phase = .readAgain source recovery ∧ green main = false
  | .original _ recovery => ∃ current reconcileOnly, phase = .listing current recovery reconcileOnly
  | .claim _ recovery => ∃ current, phase = .original current recovery
  | .writing _ recovery => ∃ current, phase = .claim current recovery
  | _ => True

def Hears (call : Call) (phase : Phase) : Except Unit (World × Phase) → Prop
  | .ok (_, next) => Heard call phase next
  | .error _ => True

theorem heard_resolveRecovery (call : Call) (phase : Phase) (key : Key) (stored : Merge) :
    Heard call phase (resolveRecovery key stored) := by
  unfold resolveRecovery
  repeat' split
  all_goals trivial

theorem heard_proceed (call : Call) (phase : Phase) (source : Merge) (recovery : Option MergeRecovery) :
    Heard call phase (proceed source recovery) := by
  unfold proceed
  repeat' split
  all_goals trivial

theorem heard_judgeLanded (call : Call) (phase : Phase) (source : Merge) (landed parent : CommitChecks)
    (now : Int) : Heard call phase (judgeLanded redactBounded source landed parent now) := by
  unfold judgeLanded
  dsimp only
  repeat' split
  all_goals trivial

/-- **The way to the mutation**: the clock past the limit, then main not green, then the list, the
merged pull request and the submission. -/
theorem hears (w : World) (call : Call) (phase : Phase) :
    Hears call phase (recoverPostMerge redactBounded w call phase) := by
  unfold recoverPostMerge
  split
  case h_6 main _ source =>
    split
    · split
      · exact heard_resolveRecovery _ _ _ _
      · exact heard_proceed _ _ _ _
    · trivial
  case h_9 => exact heard_judgeLanded _ _ _ _ _ _
  case h_12 => exact heard_proceed _ _ _ _
  case h_17 now source recovery =>
    split
    · next hlate => exact ⟨now, rfl, by omega⟩
    · trivial
  case h_18 main now source recovery =>
    split
    · exact heard_resolveRecovery _ _ _ _
    · next hred => exact ⟨main, now, source, rfl, rfl, by simpa using hred⟩
  case h_19 existing current recovery reconcileOnly =>
    split
    · split
      · trivial
      · trivial
    · split
      · trivial
      · exact ⟨current, reconcileOnly, rfl⟩
  case h_20 current recovery => exact ⟨current, rfl⟩
  case h_21 now current recovery =>
    split
    · trivial
    · split
      · trivial
      · exact ⟨current, rfl⟩
  all_goals
    repeat' split
    all_goals trivial

/-- The run read the clock after `time` and the limit. -/
def Late (events : List (Event κ)) (run : κ) (time : Int) : Prop :=
  ∃ pre now post, events = pre ++ .call run (.clock now) :: post ∧ time + RED_MAIN_LIMIT_MS ≤ now

omit [DecidableEq κ] in
theorem Late.append {events : List (Event κ)} {run : κ} {time : Int} (h : Late events run time)
    (later : List (Event κ)) : Late (events ++ later) run time := by
  obtain ⟨pre, now, post, rfl, hnow⟩ := h
  exact ⟨pre, now, post ++ later, by simp, hnow⟩

variable (redactBounded)

/-- The run read main "again immediately before the write", after it had read the clock past `time` and
the limit, and main was not green. -/
def RedFor (start : State κ) (events : List (Event κ)) (run : κ) (time : Int) : Prop :=
  ∃ pre main now post before source recovery,
    events = pre ++ .call run (.read main now) :: post ∧
    Refusals.run (step redactBounded) start pre = .ok before ∧
    before.phase run = .readAgain source recovery ∧ green main = false ∧ Late pre run time

variable {redactBounded}

theorem RedFor.append {start : State κ} {events : List (Event κ)} {run : κ} {time : Int}
    (h : RedFor redactBounded start events run time) (later : List (Event κ)) :
    RedFor redactBounded start (events ++ later) run time := by
  obtain ⟨pre, main, now, post, before, source, recovery, rfl, hpre⟩ := h
  exact ⟨pre, main, now, post ++ later, before, source, recovery, by simp, hpre⟩

variable (redactBounded) in
/-- What the events say about a run in the phase. -/
def Shown (start : State κ) (events : List (Event κ)) (run : κ) : Phase → Prop
  | .readAgain _ recovery => Late events run recovery.firstRedAt
  | .listing _ recovery _ | .original _ recovery | .claim _ recovery | .writing _ recovery =>
    RedFor redactBounded start events run recovery.firstRedAt
  | _ => True

theorem Shown.append {start : State κ} {events : List (Event κ)} {run : κ} {phase : Phase}
    (h : Shown redactBounded start events run phase) (later : List (Event κ)) :
    Shown redactBounded start (events ++ later) run phase := by
  cases phase with
  | readAgain => exact Late.append h later
  | listing | original | claim | writing => exact RedFor.append h later
  | _ => trivial

/-- One call of a run shows what the next phase relies on. -/
theorem Shown.call {start before : State κ} {events : List (Event κ)} {run : κ} {call : Call}
    {next : Phase} (hrun : Refusals.run (PostMerge.step redactBounded) start events = .ok before)
    (hshown : Shown redactBounded start events run (before.phase run))
    (hheard : Heard call (before.phase run) next) :
    Shown redactBounded start (events ++ [.call run call]) run next := by
  cases next with
  | readAgain source recovery =>
    obtain ⟨now, rfl, hlate⟩ := hheard
    exact ⟨events, now, [], rfl, hlate⟩
  | listing current recovery reconcileOnly =>
    obtain ⟨main, now, source, rfl, hphase, hred⟩ := hheard
    rw [hphase] at hshown
    exact ⟨events, main, now, [], before, source, recovery, rfl, hrun, hphase, hred, hshown⟩
  | original current recovery =>
    obtain ⟨_, _, hphase⟩ := hheard
    rw [hphase] at hshown
    exact RedFor.append hshown _
  | claim current recovery =>
    obtain ⟨_, hphase⟩ := hheard
    rw [hphase] at hshown
    exact RedFor.append hshown _
  | writing current recovery =>
    obtain ⟨_, hphase⟩ := hheard
    rw [hphase] at hshown
    exact RedFor.append hshown _
  | _ => trivial

/-- In every run of the system, the events show what each run relies on. -/
theorem shown {start s : State κ} {events : List (Event κ)} (hidle : ∀ run, start.phase run = .idle)
    (hrun : Refusals.run (step redactBounded) start events = .ok s) (run : κ) :
    Shown redactBounded start events run (s.phase run) := by
  induction events using List.reverseRecOn generalizing s run with
  | nil =>
    obtain rfl := Except.ok.inj hrun
    rw [hidle run]
    trivial
  | append_singleton events event ih =>
    obtain ⟨before, hbefore, hlast⟩ := run_append_ok.mp hrun
    obtain ⟨_, hstep, hnil⟩ := run_cons_ok.mp hlast
    obtain rfl := Except.ok.inj hnil
    cases event with
    | call runner call =>
      obtain ⟨⟨world, next⟩, hact, rfl⟩ := map_eq_ok.mp hstep
      by_cases hne : run = runner
      · have hheard := @hears redactBounded before.world call (before.phase runner)
        rw [hact] at hheard
        simp only [hne, Function.update_self]
        exact Shown.call hbefore (ih hbefore runner) hheard
      · simp only [Function.update_of_ne hne]
        exact (ih hbefore run).append _
    | crash crashed =>
      obtain rfl := Except.ok.inj hstep
      by_cases hne : run = crashed
      · simp only [hne, Function.update_self]
        trivial
      · simp only [Function.update_of_ne hne]
        exact (ih hbefore run).append _
    | opens key number =>
      rw [step] at hstep
      split at hstep
      · obtain rfl := Except.ok.inj hstep
        exact (ih hbefore run).append _
      · contradiction

/-! ### Recovery -/

variable (redactBounded) in
/-- What a run of the system from `start` to `s` promises. -/
structure RevertsOnce (start : State κ) (events : List (Event κ)) (s : State κ) : Prop where
  once : s.world.sent.length ≤ 1
  write : ∀ pre run post before, events = pre ++ .call run .write :: post →
    Refusals.run (step redactBounded) start pre = .ok before →
    ∃ recovery, before.world.merge.recovery = some recovery ∧ recovery.resolvedAt = none ∧
      RedFor redactBounded start pre run recovery.firstRedAt
  firstRedAt : ∀ pre post before recovery, events = pre ++ post →
    Refusals.run (step redactBounded) start pre = .ok before →
    before.world.merge.recovery = some recovery →
    ∃ last, s.world.merge.recovery = some last ∧ last.firstRedAt = recovery.firstRedAt
  settled : ∀ recovery, s.world.merge.recovery = some recovery → recovery.resolvedAt.isSome →
    recovery.revertSubmittedAt.isSome →
    ∃ number, recovery.revertPr = some number ∧ number ∈ s.world.closed

/-- The run that calls `write` is the one that may. -/
theorem writing_of_write {s t : State κ} {run : κ}
    (hstep : step redactBounded s (.call run .write) = .ok t) :
    ∃ current recovery, s.phase run = .writing current recovery := by
  obtain ⟨⟨world, next⟩, hact, -⟩ := map_eq_ok.mp hstep
  cases hphase : s.phase run with
  | writing current recovery => exact ⟨current, recovery, rfl⟩
  | _ =>
    rw [hphase] at hact
    contradiction

theorem careful_run {merge : Merge} {events : List (Event κ)} {s : State κ}
    (hread : Accepted (step redactBounded) (fun before event => retiresAsRead before event = true)
      (initial merge) events)
    (hrun : Refusals.run (step redactBounded) (initial merge) events = .ok s) : Careful s :=
  run_invariant_of_accepted (fun _ _ _ hcareful hfound hstep => hcareful.step hfound hstep)
    (careful_initial merge) hread hrun

/-- In every run, whatever its retirements find, one mutation is sent at most. -/
theorem sound_run {merge : Merge} {events : List (Event κ)} {s : State κ}
    (hrun : Refusals.run (step redactBounded) (initial merge) events = .ok s) : Sound s :=
  run_invariant (fun _ _ _ _ hsound hstep => (hsound.step hstep).1) (sound_initial merge) hrun

/-- The time of the first failure is never rewritten. -/
theorem dated_run {s t : State κ} {events : List (Event κ)} (h : Sound s) {time : Int}
    (hdated : s.world.ledger.Dated time)
    (hrun : Refusals.run (step redactBounded) s events = .ok t) : t.world.ledger.Dated time := by
  have hboth : Sound t ∧ t.world.ledger.Dated time := by
    refine run_invariant ?_ (I := fun state => Sound state ∧ state.world.ledger.Dated time)
      ⟨h, hdated⟩ hrun
    rintro before event after - ⟨hsound, hbefore⟩ hstep
    obtain ⟨hafter, hlater⟩ := hsound.step hstep
    exact ⟨hafter, hlater.dated hbefore⟩
  exact hboth.2

variable (redactBounded) in
/-- **One revert, and nothing left open**: in every run whose retirements find the recovery as it was read. -/
theorem recovery_reverts_once (merge : Merge) (events : List (Event κ)) (s : State κ)
    (hrun : Refusals.run (step redactBounded) (initial merge) events = .ok s)
    (hread : Accepted (step redactBounded) (fun before event => retiresAsRead before event = true)
      (initial merge) events) :
    RevertsOnce redactBounded (initial merge) events s where
  once := (sound_run hrun).ledger.once
  write := by
    rintro pre run post before rfl hpre
    have hcareful := careful_run hread.front hpre
    obtain ⟨before', hpre', hlast⟩ := run_append_ok.mp hrun
    obtain rfl := Except.ok.inj (hpre.symm.trans hpre')
    obtain ⟨after, hstep, -⟩ := run_cons_ok.mp hlast
    obtain ⟨current, recovery, hphase⟩ := writing_of_write hstep
    have hwriting : (before.phase run).Writing := by
      rw [hphase]
      trivial
    have hknows := hcareful.sound.knows run
    have hshown := @shown redactBounded κ _ _ _ _ (fun _ => rfl) hpre run
    rw [hphase] at hknows hshown
    obtain ⟨receipt, hreceipt, hfirst⟩ := hknows.1
    have hopen := hcareful.unresolved run hwriting receipt hreceipt
    obtain ⟨stored, hstored, rfl⟩ := Option.map_eq_some_iff.mp hreceipt
    refine ⟨stored, hstored, by simpa [MergeRecovery.receipt] using hopen, ?_⟩
    have htime : stored.firstRedAt = recovery.firstRedAt := hfirst
    rw [htime]
    exact hshown
  firstRedAt := by
    rintro pre post before recovery rfl hpre hrecovery
    obtain ⟨before', hpre', hpost⟩ := run_append_ok.mp hrun
    obtain rfl := Except.ok.inj (hpre.symm.trans hpre')
    obtain ⟨receipt, hreceipt, hfirst⟩ := dated_run (sound_run hpre) (dated_of_stored hrecovery) hpost
    obtain ⟨last, hlast, rfl⟩ := Option.map_eq_some_iff.mp hreceipt
    exact ⟨last, hlast, hfirst⟩
  settled := by
    intro recovery hrecovery hresolved hsubmitted
    exact (careful_run hread hrun).settled recovery.receipt (by simp [World.ledger, hrecovery])
      hresolved hsubmitted

/-! ### A recovery over its red -/

/-- Main at the merge: one required check, red since time 0. -/
def redChecks : CommitChecks := ⟨["types"], [⟨⟨"types", .red⟩, none, some 0⟩]⟩

def greenChecks : CommitChecks := ⟨["types"], [⟨⟨"types", .green⟩, none, none⟩]⟩

def mergedLane : Merge := ⟨"fixture/fixture", 7, some "abc", none, none, none, true⟩

def cut (text : String) (limit : ℕ) : String := String.ofList (text.toList.take limit)

/-- A run finds main red an hour after the merge, and goes as far as the list of the reverts. -/
def redRun (run : ℕ) : List (Event ℕ) :=
  [.call run .start, .call run (.mutate 3600000), .call run (.claimMerge true),
    .call run (.read redChecks 3600000), .call run (.read redChecks 3600000),
    .call run (.read greenChecks 3600000), .call run (.mutate 3600000), .call run .load,
    .call run (.create (some "fix")), .call run (.mutate 3600000), .call run (.clock 3600000),
    .call run (.read redChecks 3600000), .call run (.list none), .call run .pullRequest]

/-- A run finds main green: it reads the recovery and is about to retire it. -/
def greenRun (run : ℕ) (now : Int) : List (Event ℕ) :=
  [.call run .start, .call run (.mutate now), .call run (.claimMerge true),
    .call run (.read greenChecks now)]

def theMarker : Key := ⟨"fixture/fixture", some "abc"⟩

/-- The second run finds main green while the first one has yet to claim the revert. -/
def crossedRun : List (Event ℕ) :=
  redRun 0 ++ greenRun 1 3600000 ++
    [.call 0 (.mutate 3600000), .call 1 (.mutate 3600000), .call 0 .write]

/-- The first run opens the revert; a later one finds main green, closes it and retires the recovery. -/
def plainRun : List (Event ℕ) :=
  redRun 0 ++ [.call 0 (.mutate 3600000), .call 0 .write, .opens theMarker 8, .crash 0] ++
    greenRun 1 3660000 ++
    [.call 1 (.list (some 8)), .call 1 (.mutate 3660000), .call 1 .close, .call 1 (.mutate 3660000)]

theorem recovery_reverts_once_plain :
    ∃ s, Refusals.run (step cut) (initial mergedLane) plainRun = .ok s ∧
      s.world.closed = [8] ∧ RevertsOnce cut (initial mergedLane) plainRun s :=
  ⟨_, rfl, rfl, recovery_reverts_once cut mergedLane plainRun _ rfl (by decide)⟩

/-- **A recovery is resolved over a revert that was just submitted**: nothing closes it. -/
theorem resolved_over_submission :
    ¬∀ (merge : Merge) (events : List (Event ℕ)) (s : State ℕ),
      Refusals.run (step cut) (initial merge) events = .ok s →
        RevertsOnce cut (initial merge) events s := by
  intro hall
  have hpromised := hall mergedLane crossedRun _ rfl
  obtain ⟨number, hnumber, -⟩ := hpromised.settled _ rfl rfl rfl
  contradiction

end Delegatus.PostMerge
