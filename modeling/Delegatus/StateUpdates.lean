import Delegatus.StateLeases
import Delegatus.StateRefinement

/-!
# No lost update under the leases

A writer that commits holds the lease in the transaction of its commit
(`committed_under_lease`), and a token is drawn once.  So a `mutate` session whose token is
still the lease's has missed no commit, and one whose lease was taken over commits nothing
more.

A controller snapshot has no lease while it reads.  For every row it is about to replace it
knows a revision, and the row it read or committed at that revision (`Holds`).  A stamp
names one row of a key for ever, so a checkpoint that finds the revision unchanged replaces
that row.  The revisions read back after a commit are the weak point: another writer that
takes the lease over may have committed by then, and its revision is then taken for the
checkpoint's own (`ReadsBack` rules that out, `read_back_overwrites` is what happens
without).
-/

namespace Delegatus.StateLeases

open StateStore
open ChangeLogs (Follows)
open Runs (after answer EveryCall everyCall_nil everyCall_cons after_invariant
  after_of_everyCall after_append after_concat)

variable {ω κ τ : Type} [DecidableEq ω] [LinearOrder κ]

/-- No lease, and no session. -/
def State.start (c : Collection κ) : State ω κ where
  collection := c
  lease := none
  nextToken := 0
  sessions := fun _ => none

def Call.writer : Call ω κ τ → ω
  | .beginMutate writer _ => writer
  | .beginPatch writer _ => writer
  | .load writer => writer
  | .persist writer _ _ => writer
  | .beginSnapshot writer => writer
  | .readRow writer _ => writer
  | .beginCheckpoint writer _ => writer
  | .checkpoint writer _ => writer
  | .readBack writer => writer
  | .endCheckpoint writer _ => writer
  | .boundedPatch writer _ _ => writer
  | .patchSync writer _ => writer
  | .finish writer _ => writer

/-- The token of a writer's session. -/
def State.token (s : State ω κ) (writer : ω) : Option Nat :=
  (s.sessions writer).bind Session.token

/-! ### What sessions know -/

/-- The view has the rows that a write of the collection replaces. -/
def Computed (view : View κ) (c c' : Collection κ) : Prop :=
  ∀ key, c.rows.get? key ≠ c'.rows.get? key → view key = c.rows.get? key

/-- What a session knows of the collection. -/
def Holds (lease : Option Nat) (c : Collection κ) : Session κ → Prop
  | .mutating token view =>
    lease = some token → ∀ rows, view = some rows → rows = c.rows.get?
  | .reconciling expected view _ =>
    ∀ key revision, expected key = some revision →
      revision ≤ c.revision ∧
        ∀ row, c.rows.get? key = some row → row.rowRevision = revision → view key = some row
  | .patching _ => True

/-- A call that reads revisions back finds, of the rows that the session committed, no other
one in its place. -/
def ReadsBack (s : State ω κ) : Call ω κ τ → Prop
  | .readBack writer => ∀ expected view token keys,
      s.sessions writer = some (.reconciling expected view (some (token, keys))) →
      ∀ key ∈ keys, ∀ row, s.collection.rows.get? key = some row → view key = some row
  | _ => True

/-- A row that has the revision a snapshot knows is the row it had before any commit. -/
theorem Holds.reconciling_of_follows {lease : Option Nat} {c c' : Collection κ}
    {expected : κ → Option Nat} {view : View κ} {checkpoint : Option (Nat × List κ)}
    (h : Holds lease c (.reconciling expected view checkpoint))
    (hfollows : Follows Row.rowRevision c.version c'.version) :
    Holds lease c' (.reconciling expected view checkpoint) := by
  intro key revision hrevision
  obtain ⟨hle, hrow⟩ := h key revision hrevision
  refine ⟨hle.trans hfollows.revision_le, ?_⟩
  intro row hnow hstamp
  have hold := hfollows.stamped key row hnow (hstamp.le.trans hle)
  exact hrow row hold hstamp

/-- A commit under another session's lease leaves what a session knows. -/
theorem Holds.of_follows {lease : Nat} {c c' : Collection κ} {session : Session κ}
    (h : Holds (some lease) c session) (hother : session.token ≠ some lease)
    (hfollows : Follows Row.rowRevision c.version c'.version) :
    Holds (some lease) c' session := by
  cases session with
  | mutating token view =>
    intro hlease
    exact absurd hlease.symm hother
  | reconciling expected view checkpoint => exact h.reconciling_of_follows hfollows
  | patching token => trivial

/-- A lease that goes, or one of another token, takes nothing from what a session knows. -/
theorem Holds.of_lease {lease lease' : Option Nat} {c : Collection κ} {session : Session κ}
    (h : Holds lease c session)
    (hlease : ∀ token, session.token = some token → lease' = some token → lease = some token) :
    Holds lease' c session := by
  cases session with
  | mutating token view => exact fun hnow => h (hlease token rfl hnow)
  | reconciling expected view checkpoint => exact h
  | patching token => trivial

/-! ### What one call does -/

/-- What one call does: it changes nothing, it acquires the lease under a new token, it
commits under the lease, or it moves its own session and at most gives the lease up. -/
inductive Moved (options : Options κ τ) (s : State ω κ) (call : Call ω κ τ) :
    State ω κ → Answer κ → Prop
  | stays (answer : Answer κ) (hanswer : ∀ view, answer ≠ .committed view) :
    Moved options s call s answer
  | acquires (session : Session κ) (htoken : session.token = some s.nextToken)
    (hholds : (∀ old, s.sessions call.writer = some old → Holds s.lease s.collection old) →
      Holds (some s.nextToken) s.collection session) :
    Moved options s call (setSession { s with
        lease := some s.nextToken
        nextToken := s.nextToken + 1 } call.writer (some session)) .done
  | commits (token : Nat) (session session' : Session κ) (c : Collection κ) (view : View κ)
    (hsession : s.sessions call.writer = some session) (htoken : session.token = some token)
    (hlease : s.lease = some token) (htoken' : session'.token = some token)
    (hcommits : Commits options s.collection c)
    (hholds : Holds s.lease s.collection session →
      Computed view s.collection c ∧ Holds s.lease c session') :
    Moved options s call
      (setSession { s with collection := c } call.writer (some session')) (.committed view)
  | turns (lease : Option Nat) (session : Option (Session κ))
    (hlease : ∀ token, lease = some token → s.lease = some token)
    (htoken : ∀ new token, session = some new → new.token = some token →
      s.token call.writer = some token)
    (hholds : (∀ old, s.sessions call.writer = some old → Holds s.lease s.collection old) →
      ReadsBack s call → ∀ new, session = some new → Holds s.lease s.collection new) :
    Moved options s call (setSession { s with lease := lease } call.writer session) .done

omit [DecidableEq ω] [LinearOrder κ] in
theorem tryAcquireLease_some {s acquired : State ω κ} {stale : Bool} {token : Nat}
    (h : tryAcquireLease s stale = some (acquired, token)) :
    token = s.nextToken ∧
      acquired = { s with lease := some s.nextToken, nextToken := s.nextToken + 1 } := by
  unfold tryAcquireLease at h
  split_ifs at h
  simp only [Option.some.injEq, Prod.mk.injEq] at h
  exact ⟨h.2.symm, h.1.symm⟩

/-- A session that begins with the lease knows what it has to. -/
theorem beginSession_moved {options : Options κ τ} {s : State ω κ} (call : Call ω κ τ)
    {stale : Bool} {session : Nat → Session κ}
    (htoken : (session s.nextToken).token = some s.nextToken)
    (hholds : (∀ old, s.sessions call.writer = some old → Holds s.lease s.collection old) →
      Holds (some s.nextToken) s.collection (session s.nextToken)) :
    Moved options s call (beginSession s call.writer stale session).1
      (beginSession s call.writer stale session).2 := by
  unfold beginSession
  cases hacquire : tryAcquireLease s stale with
  | none => exact .stays _ (fun _ => by simp)
  | some acquired =>
    obtain ⟨acquired, token⟩ := acquired
    obtain ⟨rfl, rfl⟩ := tryAcquireLease_some hacquire
    exact .acquires _ htoken hholds

/-- A session goes on as another one, under the lease it has or none. -/
theorem turned {options : Options κ τ} {s : State ω κ} (call : Call ω κ τ) {session : Session κ}
    (htoken : ∀ token, session.token = some token → s.token call.writer = some token)
    (hholds : (∀ old, s.sessions call.writer = some old → Holds s.lease s.collection old) →
      ReadsBack s call → Holds s.lease s.collection session) :
    Moved options s call (setSession s call.writer (some session)) .done := by
  refine .turns s.lease (some session) (fun _ h => h) ?_ ?_
  · intro new token hnew hnewToken
    obtain rfl := Option.some.inj hnew
    exact htoken token hnewToken
  · intro hold hback new hnew
    obtain rfl := Option.some.inj hnew
    exact hholds hold hback

/-- A session's end, or the end of its checkpoint. -/
theorem endSession_moved {options : Options κ τ} {s : State ω κ} (call : Call ω κ τ)
    (token : Option Nat) (released : Bool) (session : Option (Session κ))
    (htoken : ∀ new token, session = some new → new.token = some token →
      s.token call.writer = some token)
    (hholds : (∀ old, s.sessions call.writer = some old → Holds s.lease s.collection old) →
      ∀ new, session = some new → Holds s.lease s.collection new) :
    Moved options s call (endSession s token released call.writer session) .done := by
  have hkeeps : Moved options s call (setSession s call.writer session) .done :=
    .turns s.lease session (fun _ h => h) htoken fun h _ => hholds h
  cases token with
  | none => exact hkeeps
  | some token =>
    simp only [endSession, deleteLease]
    split_ifs
    · exact .turns none session (fun _ h => by simp at h) htoken fun h _ => hholds h
    · exact hkeeps
    · exact hkeeps

omit [DecidableEq ω] [LinearOrder κ] in
/-- A transaction commits under the writer's lease, or changes nothing. -/
theorem transact_moved (s : State ω κ) (token : Nat) (view : View κ)
    (write : Collection κ → Except (Refusal κ) (Collection κ)) :
    (∃ c, s.lease = some token ∧ write s.collection = .ok c ∧
      transact s token view write = ({ s with collection := c }, .committed view)) ∨
    ∃ answer, (∀ view, answer ≠ .committed view) ∧ transact s token view write = (s, answer) := by
  unfold transact
  split_ifs with hlease
  · exact Or.inr ⟨.leaseLost, fun _ => by simp, rfl⟩
  · cases hwrite : write s.collection with
    | error refusal => exact Or.inr ⟨.refused refusal, fun _ => by simp, rfl⟩
    | ok c => exact Or.inl ⟨c, not_not.mp hlease, rfl, rfl⟩

/-- A patch of a session that stays as it is. -/
theorem patch_moved {options : Options κ τ} {s : State ω κ} (call : Call ω κ τ) {token : Nat}
    {write : Collection κ → Except (Refusal κ) (Collection κ)}
    (hsession : s.sessions call.writer = some (.patching token))
    (hwrite : ∀ c, write s.collection = .ok c → Commits options s.collection c) :
    Moved options s call (transact s token s.collection.rows.get? write).1
      (transact s token s.collection.rows.get? write).2 := by
  rcases transact_moved s token s.collection.rows.get? write with
    ⟨c, hlease, hc, heq⟩ | ⟨answer, hanswer, heq⟩
  · rw [heq]
    have hsame : ({ s with collection := c } : State ω κ) =
        setSession { s with collection := c } call.writer (some (.patching token)) := by
      rw [setSession, ← hsession, Function.update_eq_self]
    rw [hsame]
    exact .commits token _ _ c _ hsession rfl hlease rfl (hwrite c hc)
      fun _ => ⟨fun _ _ => rfl, trivial⟩
  · rw [heq]
    exact .stays answer hanswer

variable [EmptyCollection κ]

/-- A `persist` of a `mutate` session. -/
theorem persist_moved {options : Options κ τ} {s : State ω κ} (hsound : Sound options s.collection)
    (writer : ω) (structural : Bool) (compute : View κ → List τ) :
    Moved options s (.persist writer structural compute)
      (step options s (.persist writer structural compute)).1
      (step options s (.persist writer structural compute)).2 := by
  simp only [step]
  split
  case h_2 => exact .stays _ (fun _ => by simp)
  case h_1 token view hsession =>
    rcases transact_moved s token view
      (if structural then persistReplacement options (compute view) false [] []
        else persistChangedRows options (compute view)) with
      ⟨c, hlease, hc, heq⟩ | ⟨answer, hanswer, heq⟩
    · rw [heq]
      refine .commits token _ _ c view hsession rfl hlease rfl ?_ ?_
      · cases structural with
        | true => exact persistReplacement_commits hsound hc
        | false => exact persistChangedRows_commits hsound hc
      · intro hholds
        have hview : view = s.collection.rows.get? := hholds hlease view rfl
        refine ⟨fun key _ => by rw [hview], ?_⟩
        intro _ rows hrows
        exact (Option.some.inj hrows).symm
    · rw [heq]
      have hanswer' : ∀ committed : View κ, answer ≠ .committed committed := hanswer
      cases answer with
      | committed committed => exact absurd rfl (hanswer' committed)
      | _ => exact .stays _ hanswer

/-- The transaction of a snapshot's checkpoint: each row it replaces has the revision that the
snapshot knows, so it is the row that the snapshot has. -/
theorem checkpoint_moved {options : Options κ τ} {s : State ω κ}
    (hsound : Sound options s.collection) (writer : ω) (compute : View κ → List τ) :
    Moved options s (.checkpoint writer compute)
      (step options s (.checkpoint writer compute)).1
      (step options s (.checkpoint writer compute)).2 := by
  simp only [step]
  split
  case h_2 => exact .stays _ (fun _ => by simp)
  case h_1 expected view token hsession =>
    split
    case isTrue => exact .stays _ (fun _ => by simp)
    case isFalse hcurrent =>
      rcases transact_moved s token view (persistChangedRows options (compute view)) with
        ⟨c, hlease, hc, heq⟩ | ⟨answer, hanswer, heq⟩
      · rw [heq]
        have hcommits := persistChangedRows_commits hsound hc
        refine .commits token _ _ c view hsession rfl hlease rfl hcommits ?_
        intro hholds
        constructor
        · intro key hchanged
          have hkey : key ∈ (compute view).map options.key := by
            by_contra hkey
            exact hchanged (persistChangedRows_frame hc hkey).symm
          have hmatch : current s expected key = true := by
            by_contra hmismatch
            apply hcurrent
            refine ⟨hlease, ?_⟩
            rw [List.any_eq_true]
            exact ⟨key, hkey, by simpa using hmismatch⟩
          simp only [current, Bool.and_eq_true, decide_eq_true_eq] at hmatch
          obtain ⟨revision, hrevision⟩ := Option.isSome_iff_exists.mp hmatch.1
          rw [hrevision, Option.map_eq_some_iff] at hmatch
          obtain ⟨-, row, hrow, hstamp⟩ := hmatch
          rw [hrow]
          exact (hholds key revision hrevision).2 row hrow hstamp
        · intro key revision hrevision
          have hkept := hholds.reconciling_of_follows hcommits.follows
          obtain ⟨hle, hrow⟩ := hkept key revision hrevision
          refine ⟨hle, ?_⟩
          intro row hnow hstamp
          unfold overlay
          split_ifs
          · exact hnow
          · exact hrow row hnow hstamp
      · rw [heq]
        have hanswer' : ∀ committed : View κ, answer ≠ .committed committed := hanswer
        cases answer with
        | committed committed => exact absurd rfl (hanswer' committed)
        | _ => exact .stays _ hanswer

omit [EmptyCollection κ] [DecidableEq ω] in
/-- The revisions read back are those of the rows that the session has. -/
theorem refresh_holds {options : Options κ τ} {s : State ω κ} {expected : κ → Option Nat}
    {view : View κ} {checkpoint : Option (Nat × List κ)} {keys : List κ}
    (hsound : Sound options s.collection)
    (hholds : Holds s.lease s.collection (.reconciling expected view checkpoint))
    (hback : ∀ key ∈ keys, ∀ row, s.collection.rows.get? key = some row → view key = some row) :
    Holds s.lease s.collection
      (.reconciling (refresh expected keys s.collection) view checkpoint) := by
  intro key revision hrevision
  unfold refresh at hrevision
  split_ifs at hrevision with hkey
  · split at hrevision
    case h_1 row hrow =>
      obtain rfl := Option.some.inj hrevision
      refine ⟨hsound.stamped row (Table.get?_eq_some.mp hrow).1, ?_⟩
      intro other hother _
      exact hback key hkey other hother
    case h_2 => exact hholds key revision hrevision
  · exact hholds key revision hrevision

/-- **Every call moves the state in one of the four ways.** -/
theorem step_moved {options : Options κ τ} {s : State ω κ} (hsound : Sound options s.collection)
    (call : Call ω κ τ) : Moved options s call (step options s call).1 (step options s call).2 := by
  cases call with
  | beginMutate writer stale =>
    simp only [step]
    split
    · exact beginSession_moved (.beginMutate writer stale) rfl
        (fun _ _ rows hrows => by simp at hrows)
    · exact .stays _ (fun _ => by simp)
  | beginPatch writer stale =>
    simp only [step]
    split
    · exact beginSession_moved (.beginPatch writer stale) rfl (fun _ => trivial)
    · exact .stays _ (fun _ => by simp)
  | load writer =>
    simp only [step]
    split
    case h_1 token hsession =>
      refine turned (.load writer) ?_ ?_
      · intro token' htoken
        simp only [State.token, Call.writer, hsession, Option.bind_some]
        exact htoken
      · intro _ _ _ rows hrows
        exact (Option.some.inj hrows).symm
    case h_2 => exact .stays _ (fun _ => by simp)
  | persist writer structural compute => exact persist_moved hsound writer structural compute
  | beginSnapshot writer =>
    simp only [step]
    split
    · refine turned (.beginSnapshot writer) ?_ ?_
      · intro token htoken
        simp [Session.token] at htoken
      · intro _ _ key revision hrevision
        simp at hrevision
    · exact .stays _ (fun _ => by simp)
  | readRow writer key =>
    simp only [step]
    split
    case h_2 => exact .stays _ (fun _ => by simp)
    case h_1 expected view hsession =>
      split
      case h_2 => exact .stays _ (fun _ => by simp)
      case h_1 row hrow =>
        split
        case isFalse => exact .stays _ (fun _ => by simp)
        case isTrue =>
          refine turned (.readRow writer key) ?_ ?_
          · intro token htoken
            simp [Session.token] at htoken
          · intro hold _ other revision hrevision
            by_cases hother : other = key
            · subst hother
              rw [Function.update_self] at hrevision
              obtain rfl := Option.some.inj hrevision
              refine ⟨hsound.stamped row (Table.get?_eq_some.mp hrow).1, ?_⟩
              intro now hnow _
              rw [Function.update_self, ← hrow, hnow]
            · rw [Function.update_of_ne hother] at hrevision
              rw [Function.update_of_ne hother]
              exact hold _ hsession other revision hrevision
  | beginCheckpoint writer stale =>
    simp only [step]
    split
    case h_2 => exact .stays _ (fun _ => by simp)
    case h_1 expected view hsession =>
      simp only [beginSession]
      cases hacquire : tryAcquireLease s stale with
      | none => exact .stays _ (fun _ => by simp)
      | some acquired =>
        obtain ⟨acquired, token⟩ := acquired
        obtain ⟨rfl, rfl⟩ := tryAcquireLease_some hacquire
        exact .acquires _ rfl (fun hold => hold _ hsession)
  | checkpoint writer compute => exact checkpoint_moved hsound writer compute
  | readBack writer =>
    simp only [step]
    split
    case h_2 => exact .stays _ (fun _ => by simp)
    case h_1 expected view token keys hsession =>
      refine turned (.readBack writer) ?_ ?_
      · intro token' htoken
        simp only [State.token, Call.writer, hsession, Option.bind_some]
        exact htoken
      · intro hold hback
        exact refresh_holds hsound (hold _ hsession) (hback expected view token keys hsession)
  | endCheckpoint writer released =>
    simp only [step]
    split
    case h_2 => exact .stays _ (fun _ => by simp)
    case h_1 expected view token keys hsession =>
      apply endSession_moved (.endCheckpoint writer released) (some token) released
        (some (.reconciling expected view none))
      · intro new token' hnew htoken
        obtain rfl := Option.some.inj hnew
        simp [Session.token] at htoken
      · intro hold new hnew
        obtain rfl := Option.some.inj hnew
        have hheld := hold _ hsession
        exact hheld
  | boundedPatch writer limit operations =>
    simp only [step]
    split
    case h_2 => exact .stays _ (fun _ => by simp)
    case h_1 token hsession =>
      exact patch_moved (.boundedPatch writer limit operations) hsession
        (fun c hc => boundedPatch_commits hsound hc)
  | patchSync writer prepare =>
    simp only [step]
    split
    case h_2 => exact .stays _ (fun _ => by simp)
    case h_1 token hsession =>
      exact patch_moved (.patchSync writer prepare) hsession
        (fun c hc => persistReplacement_commits hsound hc)
  | finish writer released =>
    simp only [step]
    split
    case h_2 => exact .stays _ (fun _ => by simp)
    case h_1 session hsession =>
      apply endSession_moved (.finish writer released) session.token released none
      · intro new token hnew
        simp at hnew
      · intro _ new hnew
        simp at hnew

/-! ### Invariants -/

/-- The collection is sound and tokens are drawn once: those of the lease and of the sessions
are behind the next one, and no two sessions share one. -/
structure Fenced (options : Options κ τ) (s : State ω κ) : Prop where
  sound : Sound options s.collection
  lease_lt : ∀ token, s.lease = some token → token < s.nextToken
  token_lt : ∀ writer token, s.token writer = some token → token < s.nextToken
  apart : ∀ writer other token, s.token writer = some token → s.token other = some token →
    writer = other

/-- Every session knows what it has to. -/
def Informed (s : State ω κ) : Prop :=
  ∀ writer session, s.sessions writer = some session → Holds s.lease s.collection session

omit [EmptyCollection κ] [LinearOrder κ] in
theorem sessions_setSession (s : State ω κ) (writer other : ω) (session : Option (Session κ)) :
    (setSession s writer session).sessions other =
      if other = writer then session else s.sessions other :=
  Function.update_apply s.sessions writer session other

omit [EmptyCollection κ] [LinearOrder κ] in
theorem token_setSession (s : State ω κ) (writer other : ω) (session : Option (Session κ)) :
    (setSession s writer session).token other =
      if other = writer then session.bind Session.token else s.token other := by
  rw [State.token, sessions_setSession]
  split_ifs <;> rfl

omit [EmptyCollection κ] [DecidableEq ω] in
theorem start_fenced {options : Options κ τ} {c : Collection κ} (h : Sound options c) :
    Fenced options (State.start c : State ω κ) where
  sound := h
  lease_lt := fun _ hlease => by simp [State.start] at hlease
  token_lt := fun _ _ htoken => by simp [State.token, State.start] at htoken
  apart := fun _ _ _ htoken => by simp [State.token, State.start] at htoken

omit [EmptyCollection κ] in
theorem Moved.fenced {options : Options κ τ} {s s' : State ω κ} {call : Call ω κ τ}
    {answer : Answer κ} (hmoved : Moved options s call s' answer) (h : Fenced options s) :
    Fenced options s' := by
  cases hmoved with
  | stays answer hanswer => exact h
  | acquires session htoken hholds =>
    have hsplit : ∀ writer token, (setSession { s with
        lease := some s.nextToken
        nextToken := s.nextToken + 1 } call.writer (some session)).token writer = some token →
        (writer = call.writer ∧ token = s.nextToken) ∨ s.token writer = some token := by
      intro writer token hwriter
      rw [token_setSession] at hwriter
      split_ifs at hwriter with hsame
      · rw [Option.bind_some, htoken] at hwriter
        exact Or.inl ⟨hsame, (Option.some.inj hwriter).symm⟩
      · exact Or.inr hwriter
    refine ⟨h.sound, ?_, ?_, ?_⟩
    · intro token hlease
      obtain rfl := Option.some.inj hlease
      exact Nat.lt_succ_self _
    · intro writer token hwriter
      rcases hsplit writer token hwriter with ⟨-, rfl⟩ | hold
      · exact Nat.lt_succ_self _
      · exact (h.token_lt writer token hold).trans (Nat.lt_succ_self _)
    · intro writer other token hwriter hother
      rcases hsplit writer token hwriter with ⟨rfl, rfl⟩ | hwriter
      · rcases hsplit other _ hother with ⟨rfl, -⟩ | hother
        · rfl
        · exact absurd (h.token_lt other _ hother) (lt_irrefl _)
      · rcases hsplit other token hother with ⟨rfl, rfl⟩ | hother
        · exact absurd (h.token_lt writer _ hwriter) (lt_irrefl _)
        · exact h.apart writer other token hwriter hother
  | commits token session session' c view hsession htoken hlease htoken' hcommits hholds =>
    have hsame : ∀ writer, (setSession { s with collection := c } call.writer
        (some session')).token writer = s.token writer := by
      intro writer
      rw [token_setSession]
      split_ifs with heq
      · rw [heq, State.token, hsession, Option.bind_some, Option.bind_some, htoken, htoken']
      · rfl
    refine ⟨hcommits.sound, h.lease_lt, ?_, ?_⟩
    · intro writer other hwriter
      rw [hsame] at hwriter
      exact h.token_lt writer other hwriter
    · intro writer other held hwriter hother
      rw [hsame] at hwriter hother
      exact h.apart writer other held hwriter hother
  | turns lease session hlease htoken hholds =>
    have hold : ∀ writer token, (setSession { s with lease := lease } call.writer
        session).token writer = some token → s.token writer = some token := by
      intro writer token hwriter
      rw [token_setSession] at hwriter
      split_ifs at hwriter with heq
      · obtain ⟨new, hnew, hnewToken⟩ := Option.bind_eq_some_iff.mp hwriter
        rw [heq]
        exact htoken new token hnew hnewToken
      · exact hwriter
    refine ⟨h.sound, ?_, ?_, ?_⟩
    · intro token hnow
      exact h.lease_lt token (hlease token hnow)
    · intro writer token hwriter
      exact h.token_lt writer token (hold writer token hwriter)
    · intro writer other token hwriter hother
      exact h.apart writer other token (hold writer token hwriter) (hold other token hother)

omit [EmptyCollection κ] in
theorem Moved.informed {options : Options κ τ} {s s' : State ω κ} {call : Call ω κ τ}
    {answer : Answer κ} (hmoved : Moved options s call s' answer) (h : Fenced options s)
    (hinformed : Informed s) (hback : ReadsBack s call) : Informed s' := by
  cases hmoved with
  | stays answer hanswer => exact hinformed
  | acquires session htoken hholds =>
    intro writer held hheld
    rw [sessions_setSession] at hheld
    split_ifs at hheld
    · obtain rfl := Option.some.inj hheld
      exact hholds fun old hold => hinformed _ old hold
    · apply (hinformed writer held hheld).of_lease
      intro token hheldToken hnow
      obtain rfl := Option.some.inj hnow
      have hwriter : s.token writer = some s.nextToken := by
        rw [State.token, hheld]
        exact hheldToken
      exact absurd (h.token_lt writer _ hwriter) (lt_irrefl _)
  | commits token session session' c view hsession htoken hlease htoken' hcommits hholds =>
    intro writer held hheld
    rw [sessions_setSession] at hheld
    split_ifs at hheld with hsame
    · obtain rfl := Option.some.inj hheld
      exact (hholds (hinformed _ session hsession)).2
    · have hknows := hinformed writer held hheld
      rw [hlease] at hknows
      change Holds s.lease c held
      rw [hlease]
      apply hknows.of_follows ?_ hcommits.follows
      intro hheldToken
      apply hsame
      apply h.apart writer call.writer token
      · rw [State.token, hheld]
        exact hheldToken
      · rw [State.token, hsession]
        exact htoken
  | turns lease session hlease htoken hholds =>
    intro writer held hheld
    rw [sessions_setSession] at hheld
    split_ifs at hheld
    · have hknows := hholds (fun old hold => hinformed _ old hold) hback held hheld
      exact hknows.of_lease fun token _ hnow => hlease token hnow
    · exact (hinformed writer held hheld).of_lease fun token _ hnow => hlease token hnow

omit [EmptyCollection κ] in
/-- A commit is computed from the rows it replaces. -/
theorem Moved.computed {options : Options κ τ} {s s' : State ω κ} {call : Call ω κ τ}
    {view : View κ} (hmoved : Moved options s call s' (.committed view))
    (hinformed : Informed s) : Computed view s.collection s'.collection := by
  cases hmoved with
  | stays answer hanswer => exact absurd rfl (hanswer view)
  | commits token session session' c view hsession htoken hlease htoken' hcommits hholds =>
    exact (hholds (hinformed _ session hsession)).1

omit [EmptyCollection κ] in
/-- A writer commits under its lease. -/
theorem Moved.under_lease {options : Options κ τ} {s s' : State ω κ} {call : Call ω κ τ}
    {view : View κ} (hmoved : Moved options s call s' (.committed view)) :
    ∃ token, s.token call.writer = some token ∧ s.lease = some token := by
  cases hmoved with
  | stays answer hanswer => exact absurd rfl (hanswer view)
  | commits token session session' c view hsession htoken hlease htoken' hcommits hholds =>
    refine ⟨token, ?_, hlease⟩
    rw [State.token, hsession]
    exact htoken

omit [EmptyCollection κ] in
/-- A call that does not commit leaves the collection. -/
theorem Moved.unchanged {options : Options κ τ} {s s' : State ω κ} {call : Call ω κ τ}
    {answer : Answer κ} (hmoved : Moved options s call s' answer)
    (hanswer : ∀ view, answer ≠ .committed view) : s'.collection = s.collection := by
  cases hmoved with
  | commits token session session' c view => exact absurd rfl (hanswer view)
  | _ => rfl

/-- The token was drawn, and the lease is not its. -/
def Overtaken (token : Nat) (s : State ω κ) : Prop :=
  token < s.nextToken ∧ s.lease ≠ some token

omit [EmptyCollection κ] in
theorem Moved.overtaken {options : Options κ τ} {s s' : State ω κ} {call : Call ω κ τ}
    {answer : Answer κ} (hmoved : Moved options s call s' answer) {token : Nat}
    (h : Overtaken token s) : Overtaken token s' := by
  cases hmoved with
  | stays answer hanswer => exact h
  | acquires session htoken hholds =>
    refine ⟨h.1.trans (Nat.lt_succ_self _), ?_⟩
    intro hnow
    obtain rfl := Option.some.inj hnow
    exact absurd h.1 (lt_irrefl _)
  | commits token' session session' c view hsession htoken hlease htoken' hcommits hholds => exact h
  | turns lease session hlease htoken hholds => exact ⟨h.1, fun hnow => h.2 (hlease token hnow)⟩

/-! ### Runs -/

theorem after_fenced {options : Options κ τ} {s : State ω κ} (h : Fenced options s)
    (calls : List (Call ω κ τ)) : Fenced options (after (step options) s calls) :=
  after_invariant (fun _ call h => (step_moved h.sound call).fenced h) h calls

theorem after_informed {options : Options κ τ} {c : Collection κ} (hc : Sound options c)
    {calls : List (Call ω κ τ)}
    (hbacks : EveryCall (step options) ReadsBack (State.start c) calls) :
    Informed (after (step options) (State.start c) calls) := by
  have hstep : ∀ (s : State ω κ) (call : Call ω κ τ), (Fenced options s ∧ Informed s) →
      ReadsBack s call → Fenced options (step options s call).1 ∧ Informed (step options s call).1 := by
    intro s call h hback
    have hmoved := step_moved h.1.sound call
    exact ⟨hmoved.fenced h.1, hmoved.informed h.1 h.2 hback⟩
  have hstart : Informed (State.start c : State ω κ) := fun _ _ h => by simp [State.start] at h
  exact (after_of_everyCall hstep ⟨start_fenced hc, hstart⟩ hbacks).2

/-- **No update is lost where revisions are read back in time.**  Over every run of writers
on one collection, with leases acquired, released and taken over at any step:

* where every call that reads revisions back finds the rows that the session committed, or
  none in their place, each committed write was computed from the rows it replaces;
* a session that has lost its lease, whatever runs before its next call, commits nothing
  under that lease. -/
theorem no_update_lost (options : Options κ τ) (c : Collection κ) (hc : Sound options c)
    (calls : List (Call ω κ τ)) :
    (EveryCall (step options) ReadsBack (State.start c) calls →
      ∀ (pre post : List (Call ω κ τ)) (call : Call ω κ τ) (view : View κ),
        calls = pre ++ call :: post →
        answer (step options) (State.start c) pre call = .committed view →
        Computed view (after (step options) (State.start c) pre).collection
          (after (step options) (State.start c) (pre ++ [call])).collection) ∧
    ∀ (pre post : List (Call ω κ τ)) (writer : ω) (token : Nat), calls = pre ++ post →
      (after (step options) (State.start c) pre).token writer = some token →
      (after (step options) (State.start c) pre).lease ≠ some token →
      (after (step options) (State.start c) calls).token writer = some token →
      ∀ call : Call ω κ τ, call.writer = writer →
        (∀ view, answer (step options) (State.start c) calls call ≠ .committed view) ∧
          (after (step options) (State.start c) (calls ++ [call])).collection =
            (after (step options) (State.start c) calls).collection := by
  constructor
  · rintro hbacks pre post call view rfl hcommitted
    have hfenced := after_fenced (start_fenced hc : Fenced options (State.start c : State ω κ)) pre
    have hmoved := step_moved hfenced.sound call
    rw [answer] at hcommitted
    rw [hcommitted] at hmoved
    rw [after_concat]
    exact hmoved.computed (after_informed hc hbacks.front)
  · rintro pre post writer token rfl hpre hlost hnow call rfl
    have hfenced := after_fenced (start_fenced hc : Fenced options (State.start c : State ω κ))
    have hovertaken : ∀ s : State ω κ, Fenced options s → Overtaken token s →
        Overtaken token (after (step options) s post) := by
      intro s hs hlost
      have hboth := after_invariant (P := fun s => Fenced options s ∧ Overtaken token s)
        (fun s call h => ⟨(step_moved h.1.sound call).fenced h.1,
          (step_moved h.1.sound call).overtaken h.2⟩) ⟨hs, hlost⟩ post
      exact hboth.2
    have hend := hovertaken _ (hfenced pre) ⟨(hfenced pre).token_lt _ token hpre, hlost⟩
    rw [← after_append] at hend
    have hmoved := step_moved (hfenced (pre ++ post)).sound call
    have hrefused : ∀ view,
        answer (step options) (State.start c) (pre ++ post) call ≠ .committed view := by
      intro view hcommitted
      rw [answer] at hcommitted
      rw [hcommitted] at hmoved
      obtain ⟨held, hheld, hlease⟩ := hmoved.under_lease
      obtain rfl := Option.some.inj (hnow.symm.trans hheld)
      exact hend.2 hlease
    refine ⟨hrefused, ?_⟩
    rw [after_concat]
    exact hmoved.unchanged hrefused

/-! ### Two runs -/

/-- The collection that a seed of one row leaves. -/
def oneRow : Collection (List Nat) where
  revision := 1
  changeFloor := 0
  rows := Table.ofList [⟨[7], [7, 1], 0, 1, true⟩]
  changes := []

theorem oneRow_sound : Sound (plainOptions ()) oneRow :=
  @insertSeed_sound _ _ _ _ (plainOptions ()) [⟨[7], [7, 1], true⟩] oneRow rfl

/-- The rows that a commit was computed from. -/
def Answer.view? : Answer κ → Option (View κ)
  | .committed view => some view
  | _ => none

omit [LinearOrder κ] [EmptyCollection κ] in
theorem Answer.committed_of_view? {answer : Answer κ} {view : View κ}
    (h : answer.view? = some view) : answer = .committed view := by
  cases answer with
  | committed held => rw [Option.some.inj h]
  | _ => simp [Answer.view?] at h

/-- `ReadsBack`, as a check of the session. -/
def Session.backed (c : Collection κ) : Session κ → Bool
  | .reconciling _ view (some (_, keys)) =>
    keys.all fun key => (c.rows.get? key).all fun row => view key = some row
  | _ => true

omit [EmptyCollection κ] [DecidableEq ω] in
theorem readsBack_of_backed {s : State ω κ} {writer : ω}
    (h : (s.sessions writer).all (Session.backed s.collection) = true) :
    ReadsBack s (.readBack writer : Call ω κ τ) := by
  intro expected view token keys hsession key hkey row hrow
  rw [hsession, Option.all_some, Session.backed, List.all_eq_true] at h
  have hrowBacked := h key hkey
  rw [hrow, Option.all_some, decide_eq_true_eq] at hrowBacked
  exact hrowBacked

/-- A controller reads a row and checkpoints it. -/
def checkpointed : List (Call Nat (List Nat) (List Nat)) :=
  [.beginSnapshot 1, .readRow 1 [7], .beginCheckpoint 1 false, .checkpoint 1 fun _ => [[7, 2]]]

/-- It reads the revision back and begins its next checkpoint. -/
def readBack : List (Call Nat (List Nat) (List Nat)) :=
  checkpointed ++ [.readBack 1, .endCheckpoint 1 true, .beginCheckpoint 1 false]

/-- Before it reads the revision back its lease is taken over and the row is patched. -/
def overtaken : List (Call Nat (List Nat) (List Nat)) :=
  checkpointed ++ [.beginPatch 2 true, .patchSync 2 fun _ => ([[7, 3]], [], []), .readBack 1,
    .finish 2 true, .endCheckpoint 1 true, .beginCheckpoint 1 false]

/-- The checkpoint that follows. -/
def nextCheckpoint : Call Nat (List Nat) (List Nat) := .checkpoint 1 fun _ => [[7, 4]]

theorem no_update_lost_readBack :
    (∀ view, answer (step (plainOptions ())) (State.start oneRow) readBack nextCheckpoint =
        .committed view →
      Computed view (after (step (plainOptions ())) (State.start oneRow) readBack).collection
        (after (step (plainOptions ())) (State.start oneRow)
          (readBack ++ [nextCheckpoint])).collection) ∧
    ∃ view, answer (step (plainOptions ())) (State.start oneRow) readBack nextCheckpoint =
      .committed view := by
  constructor
  · intro view hcommitted
    refine (no_update_lost (plainOptions ()) oneRow oneRow_sound
      (readBack ++ [nextCheckpoint])).1 ?_ readBack [] nextCheckpoint view rfl hcommitted
    have hback : ReadsBack (after (step (plainOptions ())) (State.start oneRow) checkpointed)
        (.readBack 1 : Call Nat (List Nat) (List Nat)) := readsBack_of_backed (by decide)
    exact everyCall_cons trivial <| everyCall_cons trivial <| everyCall_cons trivial <|
      everyCall_cons trivial <| everyCall_cons hback <| everyCall_cons trivial <|
      everyCall_cons trivial <| everyCall_cons trivial <| everyCall_nil _ _
  · have hsome : (answer (step (plainOptions ())) (State.start oneRow) readBack
        nextCheckpoint).view?.isSome = true := by decide
    obtain ⟨view, hview⟩ := Option.isSome_iff_exists.mp hsome
    exact ⟨view, Answer.committed_of_view? hview⟩

/-- **A snapshot's checkpoint overwrites what it never read.**  Without the condition the
checkpoint after the read back commits over the patch. -/
theorem read_back_overwrites :
    ¬∀ (calls : List (Call Nat (List Nat) (List Nat))) (call : Call Nat (List Nat) (List Nat))
        (view : View (List Nat)),
      answer (step (plainOptions ())) (State.start oneRow) calls call = .committed view →
      Computed view (after (step (plainOptions ())) (State.start oneRow) calls).collection
        (after (step (plainOptions ())) (State.start oneRow) (calls ++ [call])).collection := by
  intro hclaim
  have hview : ((answer (step (plainOptions ())) (State.start oneRow) overtaken
      nextCheckpoint).view?.map fun view => view [7]) =
        some (some ⟨[7], [7, 2], 0, 2, true⟩) := by decide
  have hbefore : (after (step (plainOptions ())) (State.start oneRow)
      overtaken).collection.version.contents [7] = some ⟨[7], [7, 3], 0, 3, true⟩ := by decide
  have hafter : (after (step (plainOptions ())) (State.start oneRow)
      (overtaken ++ [nextCheckpoint])).collection.version.contents [7] =
        some ⟨[7], [7, 4], 0, 4, true⟩ := by decide
  obtain ⟨view, hcommitted, hrow⟩ := Option.map_eq_some_iff.mp hview
  have hcomputed := hclaim overtaken nextCheckpoint view (Answer.committed_of_view? hcommitted) [7]
  have hpatched : view [7] = _ := hcomputed fun hsame => by
    have hstamp := hbefore.symm.trans (hsame.trans hafter)
    exact absurd hstamp (by decide)
  exact absurd (hrow.symm.trans (hpatched.trans hbefore)) (by decide)

end Delegatus.StateLeases
