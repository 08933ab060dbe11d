import Delegatus.Runs
import Mathlib.Data.List.Nodup
import Mathlib.Logic.Function.Basic

/-!
# Claims of relay requests

Each process that takes up a relay request claims the pair of request and lease in one ledger file.
A claim stands until its owner settles it: a release removes it, a terminal settlement leaves it as a
tombstone with the completion, which later claims answer with until the retention time has passed.
A claim whose owner does not live is taken over.  Every call rewrites the whole list under the file
lock, so it is one step here.

`Owns` says by the calls alone who has a pair: a claim of the pair was answered claimed, it was not
settled since, and no other claim of the pair was answered claimed.  The ledger holds an unsettled
claim exactly for the owner (`holds_iff_owns`), and the promises of the ledger follow
(`claims_execute_once`).
-/

namespace Delegatus.RelayRequests

open Runs

def RELAY_REQUEST_CLAIM_RETENTION_MS : Int := 24 * 60 * 60000

variable {γ : Type*}

/-- The request and the lease that a claim is for. -/
structure Pair where
  requestId : String
  leaseId : String
deriving DecidableEq

/-- A process: its pid and its start identity. -/
structure Owner where
  ownerPid : ℕ
  ownerIdentity : String
deriving DecidableEq

structure RelayRequestClaim (γ : Type*) where
  pair : Pair
  owner : Owner
  claimedAt : Int
  terminalAt : Option Int
  completion : Option γ

structure State (γ : Type*) where
  claims : List (RelayRequestClaim γ)
  /-- `procBackend.processIdentity`. -/
  processIdentity : ℕ → Option String

/-- No ledger file yet. -/
def initial : State γ where
  claims := []
  processIdentity _ := none

inductive Disposition
  | terminal
  | release

inductive Call (γ : Type*)
  | claim (ownerPid : ℕ) (pair : Pair) (now : Int)
  | settle (pair : Pair) (owner : Owner) (disposition : Disposition) (completion : Option γ) (now : Int)
  /-- A process starts under a pid that no process has. -/
  | start (process : Owner)
  | die (pid : ℕ)

inductive Answer (γ : Type*)
  | claimed
  | duplicate
  | terminal (completion : Option γ)
  /-- The caller's identity is unavailable. -/
  | refused
  /-- The call answers nothing. -/
  | nothing

/-- The claims that are kept: those not settled, and the tombstones within the retention time. -/
def retained (now : Int) (claims : List (RelayRequestClaim γ)) : List (RelayRequestClaim γ) :=
  claims.filter fun claim => claim.terminalAt.all fun terminalAt =>
    decide (now - terminalAt < RELAY_REQUEST_CLAIM_RETENTION_MS)

def claimRelayRequest (s : State γ) (owner : Owner) (pair : Pair) (now : Int) : State γ × Answer γ :=
  let claims := retained now s.claims
  let claim : RelayRequestClaim γ := ⟨pair, owner, now, none, none⟩
  match claims.find? fun claim => claim.pair = pair with
  | some existing =>
    if existing.terminalAt.isSome then ({ s with claims := claims }, .terminal existing.completion)
    else if s.processIdentity existing.owner.ownerPid = some existing.owner.ownerIdentity then
      ({ s with claims := claims }, .duplicate)
    else ({ s with claims := (claims.filter fun claim => claim.pair ≠ pair) ++ [claim] }, .claimed)
  | none => ({ s with claims := claims ++ [claim] }, .claimed)

/-- What a settlement makes of a claim. -/
def settleClaim (pair : Pair) (owner : Owner) (disposition : Disposition) (completion : Option γ)
    (now : Int) (claim : RelayRequestClaim γ) : List (RelayRequestClaim γ) :=
  if claim.pair ≠ pair ∨ claim.owner ≠ owner ∨ claim.terminalAt.isSome then [claim]
  else
    match disposition with
    | .terminal =>
      [{ claim with terminalAt := some now, completion := completion.or claim.completion }]
    | .release => []

def settleRelayRequestClaim (s : State γ) (pair : Pair) (owner : Owner) (disposition : Disposition)
    (completion : Option γ) (now : Int) : State γ :=
  { s with claims := s.claims.flatMap (settleClaim pair owner disposition completion now) }

def step (s : State γ) : Call γ → State γ × Answer γ
  | .claim ownerPid pair now =>
    match s.processIdentity ownerPid with
    | none => (s, .refused)
    | some identity => claimRelayRequest s ⟨ownerPid, identity⟩ pair now
  | .settle pair owner disposition completion now =>
    (settleRelayRequestClaim s pair owner disposition completion now, .nothing)
  | .start process =>
    if s.processIdentity process.ownerPid = none then
      ({ s with processIdentity :=
          Function.update s.processIdentity process.ownerPid (some process.ownerIdentity) }, .nothing)
    else (s, .nothing)
  | .die pid => ({ s with processIdentity := Function.update s.processIdentity pid none }, .nothing)

/-! ### The claims of one pair -/

/-- The ledger holds an unsettled claim of the pair for the owner. -/
def Holds (s : State γ) (pair : Pair) (owner : Owner) : Prop :=
  ∃ claim ∈ s.claims, claim.pair = pair ∧ claim.owner = owner ∧ claim.terminalAt = none

/-- The ledger holds a tombstone of the pair. -/
def Terminal (s : State γ) (pair : Pair) (terminalAt : Int) (completion : Option γ) : Prop :=
  ∃ claim ∈ s.claims, claim.pair = pair ∧ claim.terminalAt = some terminalAt ∧
    claim.completion = completion

/-- Each pair has at most one claim, and only a settled one has a completion. -/
structure Sound (s : State γ) : Prop where
  nodup : (s.claims.map RelayRequestClaim.pair).Nodup
  completion : ∀ claim ∈ s.claims, claim.terminalAt = none → claim.completion = none

theorem Sound.unique {s : State γ} (h : Sound s) {a b : RelayRequestClaim γ} (ha : a ∈ s.claims)
    (hb : b ∈ s.claims) (hpair : a.pair = b.pair) : a = b :=
  List.inj_on_of_nodup_map h.nodup ha hb hpair

theorem mem_retained {now : Int} {claims : List (RelayRequestClaim γ)} {claim : RelayRequestClaim γ} :
    claim ∈ retained now claims ↔ claim ∈ claims ∧
      ∀ terminalAt, claim.terminalAt = some terminalAt →
        now - terminalAt < RELAY_REQUEST_CLAIM_RETENTION_MS := by
  simp [retained, Option.all_eq_true]

theorem sound_initial : Sound (initial : State γ) := ⟨List.nodup_nil, fun _ h => nomatch h⟩

theorem Sound.retained {s : State γ} (h : Sound s) (now : Int) :
    Sound { s with claims := retained now s.claims } where
  nodup := h.nodup.sublist (List.filter_sublist.map _)
  completion claim hclaim := h.completion claim (mem_retained.mp hclaim).1

/-- The list after a new claim took the place of the claims of its pair. -/
theorem Sound.replace {s : State γ} (h : Sound s) (owner : Owner) (pair : Pair) (now : Int) :
    Sound { s with claims := (s.claims.filter fun claim => claim.pair ≠ pair) ++
      [⟨pair, owner, now, none, none⟩] } where
  nodup := by
    rw [List.map_append, List.nodup_append]
    refine ⟨h.nodup.sublist (List.filter_sublist.map _), by simp, ?_⟩
    intro a ha b hb
    obtain ⟨claim, hclaim, rfl⟩ := List.mem_map.mp ha
    have hne := (List.mem_filter.mp hclaim).2
    simp only [List.map_cons, List.map_nil, List.mem_singleton] at hb
    simpa [hb] using hne
  completion claim hclaim hlive := by
    rcases List.mem_append.mp hclaim with hold | hnew
    · exact h.completion claim (List.mem_filter.mp hold).1 hlive
    · rw [List.mem_singleton.mp hnew]

/-- What a claim did. -/
inductive Claimed (s t : State γ) (owner : Owner) (pair : Pair) (now : Int) : Answer γ → Prop
  | terminal (terminalAt : Int) (completion : Option γ) (ht : t.claims = retained now s.claims)
      (hterminal : Terminal t pair terminalAt completion) : Claimed s t owner pair now (.terminal completion)
  | duplicate (other : Owner) (ht : t.claims = retained now s.claims) (hholds : Holds t pair other)
      (hlive : s.processIdentity other.ownerPid = some other.ownerIdentity) :
      Claimed s t owner pair now .duplicate
  | claimed (ht : t.claims = ((retained now s.claims).filter fun claim => claim.pair ≠ pair) ++
        [⟨pair, owner, now, none, none⟩])
      (hdead : ∀ other, Holds s pair other → s.processIdentity other.ownerPid ≠ some other.ownerIdentity)
      (hfree : ∀ terminalAt completion, Terminal s pair terminalAt completion →
        ¬now - terminalAt < RELAY_REQUEST_CLAIM_RETENTION_MS) :
      Claimed s t owner pair now .claimed

/-- **What a claim does**, in a ledger with at most one claim of each pair. -/
theorem Sound.claimed {s : State γ} (h : Sound s) (owner : Owner) (pair : Pair) (now : Int) :
    Claimed s (claimRelayRequest s owner pair now).1 owner pair now
        (claimRelayRequest s owner pair now).2 ∧
      (claimRelayRequest s owner pair now).1.processIdentity = s.processIdentity := by
  unfold claimRelayRequest
  dsimp only
  split
  · next existing hfind =>
    have hmem := List.mem_of_find?_eq_some hfind
    have hold := mem_retained.mp hmem
    have hpair : existing.pair = pair := by simpa using List.find?_some hfind
    split
    · next hterminal =>
      obtain ⟨terminalAt, hterminalAt⟩ := Option.isSome_iff_exists.mp hterminal
      exact ⟨.terminal terminalAt existing.completion rfl ⟨existing, hmem, hpair, hterminalAt, rfl⟩, rfl⟩
    · next hunsettled =>
      have hnone : existing.terminalAt = none := by simpa using hunsettled
      split
      · next hlive => exact ⟨.duplicate existing.owner rfl ⟨existing, hmem, hpair, rfl, hnone⟩ hlive, rfl⟩
      · next hdead =>
        refine ⟨.claimed rfl ?_ ?_, rfl⟩
        · rintro other ⟨claim, hclaim, hsame, rfl, -⟩
          rwa [h.unique hclaim hold.1 (hsame.trans hpair.symm)]
        · rintro terminalAt completion ⟨claim, hclaim, hsame, hterminalAt, -⟩
          rw [h.unique hclaim hold.1 (hsame.trans hpair.symm), hnone] at hterminalAt
          contradiction
  · next hfind =>
    have habsent : ∀ claim ∈ RelayRequests.retained now s.claims, claim.pair ≠ pair := by
      intro claim hclaim
      simpa using List.find?_eq_none.mp hfind claim hclaim
    have hfilter : (RelayRequests.retained now s.claims).filter (fun claim => claim.pair ≠ pair) =
        RelayRequests.retained now s.claims :=
      List.filter_eq_self.mpr fun claim hclaim => by simpa using habsent claim hclaim
    refine ⟨.claimed (by rw [hfilter]) ?_ ?_, rfl⟩
    · rintro other ⟨claim, hclaim, hsame, -, hunsettled⟩
      refine absurd hsame (habsent claim (mem_retained.mpr ⟨hclaim, fun terminalAt hterminalAt => ?_⟩))
      rw [hunsettled] at hterminalAt
      contradiction
    · rintro terminalAt completion ⟨claim, hclaim, hsame, hterminalAt, -⟩ hage
      refine absurd hsame (habsent claim (mem_retained.mpr ⟨hclaim, fun other hother => ?_⟩))
      obtain rfl := Option.some.inj (hterminalAt.symm.trans hother)
      exact hage

theorem mem_settled {s : State γ} {pair : Pair} {owner : Owner} {disposition : Disposition}
    {completion : Option γ} {now : Int} {claim : RelayRequestClaim γ} :
    claim ∈ (settleRelayRequestClaim s pair owner disposition completion now).claims ↔
      (claim ∈ s.claims ∧ ¬(claim.pair = pair ∧ claim.owner = owner ∧ claim.terminalAt = none)) ∨
      (disposition = .terminal ∧ ∃ old ∈ s.claims, old.pair = pair ∧ old.owner = owner ∧
        old.terminalAt = none ∧
        claim = { old with terminalAt := some now, completion := completion.or old.completion }) := by
  have hcases : ∀ old : RelayRequestClaim γ, claim ∈ settleClaim pair owner disposition completion now old ↔
      (claim = old ∧ ¬(claim.pair = pair ∧ claim.owner = owner ∧ claim.terminalAt = none)) ∨
      (disposition = .terminal ∧ old.pair = pair ∧ old.owner = owner ∧ old.terminalAt = none ∧
        claim = { old with terminalAt := some now, completion := completion.or old.completion }) := by
    intro old
    unfold settleClaim
    split
    · next hother =>
      have hnot : ¬(old.pair = pair ∧ old.owner = owner ∧ old.terminalAt = none) := by
        rintro ⟨hpair, howner, hlive⟩
        simp [hpair, howner, hlive] at hother
      constructor
      · intro hclaim
        obtain rfl := List.mem_singleton.mp hclaim
        exact Or.inl ⟨rfl, hnot⟩
      · rintro (⟨rfl, -⟩ | ⟨-, hpair, howner, hlive, -⟩)
        · exact List.mem_singleton_self _
        · exact absurd ⟨hpair, howner, hlive⟩ hnot
    · next hmatch =>
      have hsame : old.pair = pair ∧ old.owner = owner ∧ old.terminalAt = none := by
        simpa [not_or, Option.isSome_iff_ne_none] using hmatch
      cases disposition with
      | terminal =>
        simp only [List.mem_singleton, true_and]
        constructor
        · exact fun hclaim => Or.inr ⟨hsame.1, hsame.2.1, hsame.2.2, hclaim⟩
        · rintro (⟨rfl, hnot⟩ | ⟨-, -, -, hclaim⟩)
          · exact absurd hsame hnot
          · exact hclaim
      | release =>
        constructor
        · exact fun hclaim => absurd hclaim List.not_mem_nil
        · rintro (⟨rfl, hnot⟩ | ⟨hdisposition, -⟩)
          · exact absurd hsame hnot
          · contradiction
  rw [settleRelayRequestClaim, List.mem_flatMap]
  constructor
  · rintro ⟨old, hold, hclaim⟩
    rcases (hcases old).mp hclaim with ⟨rfl, hnot⟩ | ⟨hdisposition, hpair, howner, hlive, heq⟩
    · exact Or.inl ⟨hold, hnot⟩
    · exact Or.inr ⟨hdisposition, old, hold, hpair, howner, hlive, heq⟩
  · rintro (⟨hmem, hnot⟩ | ⟨hdisposition, old, hold, hpair, howner, hlive, heq⟩)
    · exact ⟨claim, hmem, (hcases claim).mpr (Or.inl ⟨rfl, hnot⟩)⟩
    · exact ⟨old, hold, (hcases old).mpr (Or.inr ⟨hdisposition, hpair, howner, hlive, heq⟩)⟩

/-- A settlement by an owner that holds no claim of the pair changes no claim. -/
theorem settle_of_not_holds {s : State γ} {pair : Pair} {owner : Owner}
    (h : ¬Holds s pair owner) (disposition : Disposition) (completion : Option γ) (now : Int) :
    (settleRelayRequestClaim s pair owner disposition completion now).claims = s.claims := by
  have hself : ∀ claim ∈ s.claims, settleClaim pair owner disposition completion now claim = [claim] := by
    intro claim hclaim
    unfold settleClaim
    rw [if_pos]
    by_contra hmatch
    simp only [not_or, not_not, Option.not_isSome_iff_eq_none] at hmatch
    exact h ⟨claim, hclaim, hmatch.1, hmatch.2.1, hmatch.2.2⟩
  rw [settleRelayRequestClaim, List.flatMap_congr hself, List.flatMap_singleton']

/-! ### What each call keeps -/

theorem Sound.settle {s : State γ} (h : Sound s) (pair : Pair) (owner : Owner)
    (disposition : Disposition) (completion : Option γ) (now : Int) :
    Sound (settleRelayRequestClaim s pair owner disposition completion now) where
  nodup := by
    have hpairs : ∀ claims : List (RelayRequestClaim γ),
        ((claims.flatMap (settleClaim pair owner disposition completion now)).map
          RelayRequestClaim.pair).Sublist (claims.map RelayRequestClaim.pair) := by
      intro claims
      induction claims with
      | nil => exact List.Sublist.refl _
      | cons claim rest ih =>
        have hclaim : ((settleClaim pair owner disposition completion now claim).map
            RelayRequestClaim.pair).Sublist [claim.pair] := by
          unfold settleClaim
          split
          · exact List.Sublist.refl _
          · split
            · exact List.Sublist.refl _
            · exact List.nil_sublist _
        rw [List.flatMap_cons, List.map_append]
        exact hclaim.append ih
    exact h.nodup.sublist (hpairs s.claims)
  completion claim hclaim hlive := by
    rcases mem_settled.mp hclaim with ⟨hmem, -⟩ | ⟨-, old, -, -, -, -, rfl⟩
    · exact h.completion claim hmem hlive
    · contradiction

theorem Sound.claim {s : State γ} (h : Sound s) (owner : Owner) (pair : Pair) (now : Int) :
    Sound (claimRelayRequest s owner pair now).1 := by
  have hretained := h.retained now
  obtain ⟨hclaimed, -⟩ := h.claimed owner pair now
  generalize claimRelayRequest s owner pair now = result at hclaimed ⊢
  obtain ⟨t, answer⟩ := result
  cases hclaimed with
  | terminal _ _ ht => exact ⟨ht ▸ hretained.nodup, ht ▸ hretained.completion⟩
  | duplicate _ ht => exact ⟨ht ▸ hretained.nodup, ht ▸ hretained.completion⟩
  | claimed ht =>
    have hreplaced := hretained.replace owner pair now
    exact ⟨ht ▸ hreplaced.nodup, ht ▸ hreplaced.completion⟩

/-- **Step lemma.** -/
theorem Sound.step {s : State γ} (h : Sound s) (call : Call γ) : Sound (step s call).1 := by
  cases call with
  | claim ownerPid pair now =>
    rw [RelayRequests.step]
    split
    · exact h
    · exact h.claim _ pair now
  | settle pair owner disposition completion now => exact h.settle pair owner disposition completion now
  | start process =>
    rw [RelayRequests.step]
    split
    · exact ⟨h.nodup, h.completion⟩
    · exact h
  | die pid => exact ⟨h.nodup, h.completion⟩

theorem sound_after (calls : List (Call γ)) : Sound (after RelayRequests.step initial calls) :=
  after_invariant (fun _ call h => h.step call) sound_initial calls

/-- The call is a claim of the pair by the owner that is answered claimed. -/
def Takes (s : State γ) (call : Call γ) (pair : Pair) (owner : Owner) : Prop :=
  ∃ now, call = .claim owner.ownerPid pair now ∧
    s.processIdentity owner.ownerPid = some owner.ownerIdentity ∧ (step s call).2 = .claimed

/-- The call is a settlement of the pair by the owner. -/
def Settles (call : Call γ) (pair : Pair) (owner : Owner) : Prop :=
  ∃ disposition completion now, call = .settle pair owner disposition completion now

/-- The call is a claim of the pair by anyone that is answered claimed. -/
def TakesAny (s : State γ) (call : Call γ) (pair : Pair) : Prop := ∃ owner, Takes s call pair owner

theorem mem_replaced {claims : List (RelayRequestClaim γ)} {claim new : RelayRequestClaim γ}
    {pair : Pair} :
    claim ∈ (claims.filter fun claim => claim.pair ≠ pair) ++ [new] ↔
      claim ∈ claims ∧ claim.pair ≠ pair ∨ claim = new := by
  simp

/-- Unsettled claims outlive every pruning. -/
theorem holds_retained {s t : State γ} {now : Int} (ht : t.claims = retained now s.claims)
    {pair : Pair} {owner : Owner} : Holds t pair owner ↔ Holds s pair owner := by
  constructor
  · rintro ⟨claim, hclaim, hrest⟩
    rw [ht] at hclaim
    exact ⟨claim, (mem_retained.mp hclaim).1, hrest⟩
  · rintro ⟨claim, hclaim, hpair, howner, hlive⟩
    refine ⟨claim, ht ▸ mem_retained.mpr ⟨hclaim, fun terminalAt hterminalAt => ?_⟩, hpair, howner, hlive⟩
    rw [hlive] at hterminalAt
    contradiction

/-- Whom a claim that is answered claimed leaves with the pair. -/
theorem holds_claimed {s t : State γ} {now : Int} {new : Owner} {pair : Pair}
    (ht : t.claims = ((retained now s.claims).filter fun claim => claim.pair ≠ pair) ++
      [⟨pair, new, now, none, none⟩]) {other : Pair} {owner : Owner} :
    Holds t other owner ↔ (other = pair ∧ owner = new) ∨ (other ≠ pair ∧ Holds s other owner) := by
  rw [← holds_retained (t := { s with claims := retained now s.claims }) rfl]
  constructor
  · rintro ⟨claim, hclaim, rfl, rfl, hlive⟩
    rw [ht, mem_replaced] at hclaim
    rcases hclaim with ⟨hold, hne⟩ | rfl
    · exact Or.inr ⟨hne, claim, hold, rfl, rfl, hlive⟩
    · exact Or.inl ⟨rfl, rfl⟩
  · rintro (⟨rfl, rfl⟩ | ⟨hne, claim, hclaim, rfl, rfl, hlive⟩)
    · exact ⟨_, ht ▸ mem_replaced.mpr (Or.inr rfl), rfl, rfl, rfl⟩
    · exact ⟨claim, ht ▸ mem_replaced.mpr (Or.inl ⟨hclaim, hne⟩), rfl, rfl, hlive⟩

theorem holds_settled {s : State γ} {pair other : Pair} {owner holder : Owner}
    {disposition : Disposition} {completion : Option γ} {now : Int} :
    Holds (settleRelayRequestClaim s pair owner disposition completion now) other holder ↔
      Holds s other holder ∧ ¬(other = pair ∧ holder = owner) := by
  constructor
  · rintro ⟨claim, hclaim, rfl, rfl, hlive⟩
    rcases mem_settled.mp hclaim with ⟨hmem, hnot⟩ | ⟨-, old, -, -, -, -, rfl⟩
    · exact ⟨⟨claim, hmem, rfl, rfl, hlive⟩, fun hsame => hnot ⟨hsame.1, hsame.2, hlive⟩⟩
    · contradiction
  · rintro ⟨⟨claim, hclaim, rfl, rfl, hlive⟩, hne⟩
    refine ⟨claim, mem_settled.mpr (Or.inl ⟨hclaim, fun hsame => hne ⟨hsame.1, hsame.2.1⟩⟩), rfl, rfl, hlive⟩

/-- Who holds a pair after a claim. -/
theorem Sound.holds_claim {s : State γ} (h : Sound s) (new owner : Owner) (claimed pair : Pair) (now : Int) :
    Holds (claimRelayRequest s new claimed now).1 pair owner ↔
      ((claimRelayRequest s new claimed now).2 = .claimed ∧ pair = claimed ∧ owner = new) ∨
      (Holds s pair owner ∧ ¬((claimRelayRequest s new claimed now).2 = .claimed ∧ pair = claimed)) := by
  obtain ⟨hclaimed, -⟩ := h.claimed new claimed now
  generalize claimRelayRequest s new claimed now = result at hclaimed ⊢
  obtain ⟨t, answer⟩ := result
  cases hclaimed with
  | terminal _ _ ht => simp [holds_retained ht]
  | duplicate _ ht => simp [holds_retained ht]
  | claimed ht => simp [holds_claimed ht, and_comm]

/-- **Who holds a pair after a call**: who took it in the call, or who held it and neither settled
it nor lost it to another. -/
theorem Sound.holds_step {s : State γ} (h : Sound s) (call : Call γ) (pair : Pair) (owner : Owner) :
    Holds (RelayRequests.step s call).1 pair owner ↔
      Takes s call pair owner ∨ (Holds s pair owner ∧ ¬Settles call pair owner ∧ ¬TakesAny s call pair) := by
  cases call with
  | claim ownerPid claimed now =>
    have hno : ¬Settles (.claim ownerPid claimed now : Call γ) pair owner := by
      rintro ⟨_, _, _, heq⟩
      contradiction
    cases hidentity : s.processIdentity ownerPid with
    | none =>
      have hrefused : RelayRequests.step s (.claim ownerPid claimed now) = (s, .refused) := by
        rw [RelayRequests.step, hidentity]
      have htakes : ∀ other, ¬Takes s (.claim ownerPid claimed now) pair other := by
        rintro other ⟨_, -, -, hanswer⟩
        rw [hrefused] at hanswer
        contradiction
      simp [hrefused, htakes, hno, TakesAny]
    | some identity =>
      have hclaim : RelayRequests.step s (.claim ownerPid claimed now) =
          claimRelayRequest s ⟨ownerPid, identity⟩ claimed now := by
        rw [RelayRequests.step, hidentity]
      have htakes : ∀ other, Takes s (.claim ownerPid claimed now) pair other ↔
          (claimRelayRequest s ⟨ownerPid, identity⟩ claimed now).2 = .claimed ∧ pair = claimed ∧
            other = ⟨ownerPid, identity⟩ := by
        intro other
        constructor
        · rintro ⟨madeAt, heq, hother, hanswer⟩
          obtain ⟨rfl, rfl, rfl⟩ := Call.claim.inj heq
          obtain rfl := Option.some.inj (hidentity.symm.trans hother)
          exact ⟨hclaim ▸ hanswer, rfl, rfl⟩
        · rintro ⟨hanswer, rfl, rfl⟩
          exact ⟨now, rfl, hidentity, hclaim ▸ hanswer⟩
      have htaken : TakesAny s (.claim ownerPid claimed now) pair ↔
          (claimRelayRequest s ⟨ownerPid, identity⟩ claimed now).2 = .claimed ∧ pair = claimed := by
        simp [TakesAny, htakes]
      rw [hclaim, h.holds_claim, htakes, htaken]
      simp [hno]
  | settle settled settler disposition completion now =>
    have hno : ∀ other, ¬Takes s (.settle settled settler disposition completion now) pair other := by
      rintro other ⟨_, heq, -⟩
      contradiction
    have hsettles : Settles (.settle settled settler disposition completion now) pair owner ↔
        pair = settled ∧ owner = settler := by
      constructor
      · rintro ⟨_, _, _, heq⟩
        obtain ⟨rfl, rfl, -⟩ := Call.settle.inj heq
        exact ⟨rfl, rfl⟩
      · rintro ⟨rfl, rfl⟩
        exact ⟨_, _, _, rfl⟩
    rw [RelayRequests.step, holds_settled, hsettles]
    simp [hno, TakesAny]
  | start process =>
    have hclaims : (RelayRequests.step s (.start process)).1.claims = s.claims := by
      rw [RelayRequests.step]
      split <;> exact rfl
    simp [Holds, hclaims, Takes, TakesAny, Settles]
  | die pid => simp [Holds, RelayRequests.step, Takes, TakesAny, Settles]

/-! ### Runs -/

/-- A claim of the pair by the owner was answered claimed; it was not settled since, and no other
claim of the pair was answered claimed. -/
def Owns (calls : List (Call γ)) (pair : Pair) (owner : Owner) : Prop :=
  Standing step (fun s call => Takes s call pair owner)
    (fun s call => Settles call pair owner ∨ TakesAny s call pair) initial calls

theorem holds_iff_owns (calls : List (Call γ)) (pair : Pair) (owner : Owner) :
    Holds (after step initial calls) pair owner ↔ Owns calls pair owner := by
  refine after_iff_standing (I := Sound) (P := fun s => Holds s pair owner)
    (fun _ call h => h.step call) ?_ sound_initial ?_ calls
  · intro s call h
    rw [h.holds_step, not_or]
  · rintro ⟨claim, hclaim, -⟩
    contradiction

/-- While the owner of a pair lives, nobody takes it. -/
theorem Sound.not_takes {s : State γ} (h : Sound s) {pair : Pair} {owner : Owner}
    (hholds : Holds s pair owner)
    (hlive : s.processIdentity owner.ownerPid = some owner.ownerIdentity) (call : Call γ) :
    ¬TakesAny s call pair := by
  rintro ⟨other, now, rfl, hidentity, hanswer⟩
  rw [RelayRequests.step, hidentity] at hanswer
  dsimp only at hanswer
  obtain ⟨hclaimed, -⟩ := h.claimed ⟨other.ownerPid, other.ownerIdentity⟩ pair now
  rw [hanswer] at hclaimed
  cases hclaimed with
  | claimed _ hdead => exact hdead owner hholds hlive

/-- A call that is no settlement by the owner, and not its death, leaves a living owner its pair. -/
theorem Sound.keeps {s : State γ} (h : Sound s) {pair : Pair} {owner : Owner} {call : Call γ}
    (hcall : ¬Settles call pair owner ∧ ∀ pid, call = .die pid → pid ≠ owner.ownerPid)
    (hholds : Holds s pair owner)
    (hlive : s.processIdentity owner.ownerPid = some owner.ownerIdentity) :
    Holds (RelayRequests.step s call).1 pair owner ∧
      (RelayRequests.step s call).1.processIdentity owner.ownerPid = some owner.ownerIdentity := by
  refine ⟨(h.holds_step call pair owner).mpr (Or.inr ⟨hholds, hcall.1, h.not_takes hholds hlive call⟩), ?_⟩
  cases call with
  | claim ownerPid claimed now =>
    rw [RelayRequests.step]
    split
    · exact hlive
    · rw [(h.claimed _ claimed now).2]
      exact hlive
  | settle => exact hlive
  | start process =>
    rw [RelayRequests.step]
    split
    · next hfree =>
      have hne : owner.ownerPid ≠ process.ownerPid := by
        intro heq
        rw [← heq, hlive] at hfree
        contradiction
      exact (Function.update_of_ne hne _ _).trans hlive
    · exact hlive
  | die pid => exact (Function.update_of_ne (hcall.2 pid rfl).symm _ _).trans hlive

theorem terminal_of_settle {s : State γ} (h : Sound s) {pair : Pair} {owner : Owner}
    (hholds : Holds s pair owner) (completion : Option γ) (now : Int) :
    Terminal (settleRelayRequestClaim s pair owner .terminal completion now) pair now completion := by
  obtain ⟨claim, hclaim, hpair, howner, hlive⟩ := hholds
  refine ⟨{ claim with terminalAt := some now, completion := completion.or claim.completion },
    mem_settled.mpr (Or.inr ⟨rfl, claim, hclaim, hpair, howner, hlive, rfl⟩), hpair, rfl, ?_⟩
  rw [h.completion claim hclaim hlive, Option.or_none]

/-- A claim within the retention time, and every other call, leaves a tombstone. -/
theorem Sound.terminal_step {s : State γ} (h : Sound s) {pair : Pair} {terminalAt : Int}
    {completion : Option γ} {call : Call γ}
    (hcall : ∀ ownerPid other now, call = .claim ownerPid other now →
      now - terminalAt < RELAY_REQUEST_CLAIM_RETENTION_MS)
    (hterminal : Terminal s pair terminalAt completion) :
    Terminal (RelayRequests.step s call).1 pair terminalAt completion := by
  obtain ⟨claim, hclaim, hpair, hat, hcompletion⟩ := hterminal
  cases call with
  | claim ownerPid claimed now =>
    rw [RelayRequests.step]
    split
    · exact ⟨claim, hclaim, hpair, hat, hcompletion⟩
    · next identity _ =>
      have hkept : claim ∈ RelayRequests.retained now s.claims := by
        refine mem_retained.mpr ⟨hclaim, fun other hother => ?_⟩
        obtain rfl := Option.some.inj (hat.symm.trans hother)
        exact hcall ownerPid claimed now rfl
      obtain ⟨hclaimed, -⟩ := h.claimed ⟨ownerPid, identity⟩ claimed now
      generalize claimRelayRequest s ⟨ownerPid, identity⟩ claimed now = result at hclaimed ⊢
      obtain ⟨t, answer⟩ := result
      cases hclaimed with
      | terminal _ _ ht => exact ⟨claim, ht ▸ hkept, hpair, hat, hcompletion⟩
      | duplicate _ ht => exact ⟨claim, ht ▸ hkept, hpair, hat, hcompletion⟩
      | claimed ht _ hfree =>
        have hne : claim.pair ≠ claimed := by
          rintro heq
          exact hfree terminalAt completion ⟨claim, hclaim, heq, hat, hcompletion⟩
            (hcall ownerPid claimed now rfl)
        exact ⟨claim, ht ▸ mem_replaced.mpr (Or.inl ⟨hkept, hne⟩), hpair, hat, hcompletion⟩
  | settle settled settler disposition completion' now =>
    refine ⟨claim, mem_settled.mpr (Or.inl ⟨hclaim, fun hsame => ?_⟩), hpair, hat, hcompletion⟩
    rw [hat] at hsame
    exact nomatch hsame.2.2
  | start process =>
    rw [RelayRequests.step]
    split
    · exact ⟨claim, hclaim, hpair, hat, hcompletion⟩
    · exact ⟨claim, hclaim, hpair, hat, hcompletion⟩
  | die pid => exact ⟨claim, hclaim, hpair, hat, hcompletion⟩

/-- A claim within the retention time of a tombstone is answered with its completion. -/
theorem Sound.terminal_answer {s : State γ} (h : Sound s) {pair : Pair} {terminalAt now : Int}
    {completion : Option γ} (hterminal : Terminal s pair terminalAt completion)
    (hage : now - terminalAt < RELAY_REQUEST_CLAIM_RETENTION_MS) {ownerPid : ℕ} {identity : String}
    (hidentity : s.processIdentity ownerPid = some identity) :
    (RelayRequests.step s (.claim ownerPid pair now)).2 = .terminal completion := by
  obtain ⟨claim, hclaim, hpair, hat, rfl⟩ := hterminal
  have hkept : claim ∈ RelayRequests.retained now s.claims := by
    refine mem_retained.mpr ⟨hclaim, fun other hother => ?_⟩
    obtain rfl := Option.some.inj (hat.symm.trans hother)
    exact hage
  have hunique : ∀ other ∈ RelayRequests.retained now s.claims, other.pair = pair → other = claim :=
    fun other hother hsame =>
      h.unique (mem_retained.mp hother).1 hclaim (hsame.trans hpair.symm)
  rw [RelayRequests.step, hidentity]
  dsimp only
  obtain ⟨hclaimed, -⟩ := h.claimed ⟨ownerPid, identity⟩ pair now
  generalize claimRelayRequest s ⟨ownerPid, identity⟩ pair now = result at hclaimed ⊢
  obtain ⟨t, answer⟩ := result
  cases hclaimed with
  | terminal _ _ ht hterminal =>
    obtain ⟨other, hother, hsame, -, rfl⟩ := hterminal
    rw [hunique other (ht ▸ hother) hsame]
  | duplicate _ ht hholds =>
    obtain ⟨other, hother, hsame, -, hlive⟩ := hholds
    rw [hunique other (ht ▸ hother) hsame, hat] at hlive
    contradiction
  | claimed _ _ hfree => exact absurd hage (hfree terminalAt _ ⟨claim, hclaim, hpair, hat, rfl⟩)

/-- **The ledger executes each request once.**  After every run of calls: each pair has at most one
claim; once a claim was answered claimed, no other claim of the pair is answered claimed before its
owner has settled it or died; once the owner of a pair has settled it terminal, every claim within
the retention time is answered with the completion; and a settlement by a process that does not own
the pair changes no claim. -/
theorem claims_execute_once (calls : List (Call γ)) :
    ((after step initial calls).claims.map RelayRequestClaim.pair).Nodup ∧
    (∀ pair owner call later, Takes (after step initial calls) call pair owner →
      (∀ other ∈ later, ¬Settles other pair owner ∧ ∀ pid, other = .die pid → pid ≠ owner.ownerPid) →
      ∀ other, ¬TakesAny (after step initial (calls ++ call :: later)) other pair) ∧
    (∀ pair owner completion terminalAt later, Owns calls pair owner →
      (∀ ownerPid other now, Call.claim ownerPid other now ∈ later →
        now - terminalAt < RELAY_REQUEST_CLAIM_RETENTION_MS) →
      ∀ ownerPid identity now, now - terminalAt < RELAY_REQUEST_CLAIM_RETENTION_MS →
        (after step initial (calls ++ .settle pair owner .terminal completion terminalAt :: later)).processIdentity
          ownerPid = some identity →
        answer step initial (calls ++ .settle pair owner .terminal completion terminalAt :: later)
          (.claim ownerPid pair now) = .terminal completion) ∧
    (∀ pair owner disposition completion now, ¬Owns calls pair owner →
      (step (after step initial calls) (.settle pair owner disposition completion now)).1.claims =
        (after step initial calls).claims) := by
  have hsound := sound_after calls
  refine ⟨hsound.nodup, ?_, ?_, ?_⟩
  · intro pair owner call later htakes hlater
    have hsteps : ∀ (s : State γ) (other : Call γ), Sound s →
        (¬Settles other pair owner ∧ ∀ pid, other = .die pid → pid ≠ owner.ownerPid) →
        (Holds s pair owner ∧ s.processIdentity owner.ownerPid = some owner.ownerIdentity) →
        Holds (step s other).1 pair owner ∧
          (step s other).1.processIdentity owner.ownerPid = some owner.ownerIdentity :=
      fun s other h hother hkept => h.keeps hother hkept.1 hkept.2
    have hholds : Holds (step (after step initial calls) call).1 pair owner :=
      (hsound.holds_step call pair owner).mpr (Or.inl htakes)
    have hlive : (step (after step initial calls) call).1.processIdentity owner.ownerPid =
        some owner.ownerIdentity := by
      obtain ⟨now, rfl, hidentity, -⟩ := htakes
      rw [step, hidentity]
      exact ((hsound.claimed _ pair now).2 ▸ hidentity :)
    rw [after_append, after_cons]
    have hkept := after_invariant_of (I := Sound) (fun _ other h => h.step other) hsteps
      (hsound.step call) ⟨hholds, hlive⟩ later hlater
    have hlater := after_invariant (P := Sound) (fun _ other h => h.step other) (hsound.step call) later
    exact fun other => hlater.not_takes hkept.1 hkept.2 other
  · intro pair owner completion terminalAt later howns hlater ownerPid identity now hage hidentity
    have hterminal := terminal_of_settle hsound ((holds_iff_owns calls pair owner).mpr howns)
      completion terminalAt
    rw [after_append, after_cons] at hidentity
    rw [answer, after_append, after_cons]
    have hsettled := hsound.settle pair owner .terminal completion terminalAt
    have hkept := after_invariant_of (I := Sound)
      (P := fun s => Terminal s pair terminalAt completion)
      (Q := fun call => ∀ ownerPid other now, call = .claim ownerPid other now →
        now - terminalAt < RELAY_REQUEST_CLAIM_RETENTION_MS)
      (fun _ other h => h.step other) (fun s call h hcall hterm => h.terminal_step hcall hterm)
      hsettled hterminal later (fun call hmem ownerPid other now heq => hlater ownerPid other now (heq ▸ hmem))
    have hend := after_invariant (P := Sound) (fun _ other h => h.step other) hsettled later
    exact hend.terminal_answer hkept hage hidentity
  · intro pair owner disposition completion now howns
    exact settle_of_not_holds (fun hholds => howns ((holds_iff_owns calls pair owner).mp hholds)) _ _ _

end Delegatus.RelayRequests
