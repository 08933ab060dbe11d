import Delegatus.CheckRollup
import Delegatus.LifecyclePolls

/-!
# What the rollup says of each check

One check stands for each known one, with the verdict of its latest entries, whatever order the
entries came in.  The map is keyed by a text, so this holds when the texts tell apart what is known:
the workflow and the name of a check run may hold the separator, and then two check runs share a key.
-/

namespace Delegatus.CheckRollup

open AutoMerge (CheckVerdict)

/-! ### What a check is known by -/

inductive Identity
  | status (name : String)
  | check (app : Int) (workflow name : String)
deriving DecidableEq

def provenIdentity (source : CheckSource) (appId : Option Int) (workflow : Option String)
    (name : String) : Option Identity :=
  match source, appId, workflow with
  | .status, _, _ => some (.status name)
  | .check, some app, some workflow => some (.check app workflow name)
  | .check, _, _ => none

def Check.identity (check : Check) : Option Identity :=
  provenIdentity check.source check.appId check.workflow check.name

def ReadCheck.identity (read : ReadCheck) : Option Identity :=
  provenIdentity read.source read.appId read.workflow read.name

def Identity.key : Identity → String
  | .status name => String.ofList (joined ["status", name])
  | .check app workflow name => String.ofList (joined ["check", toString app, workflow, name])

theorem identityOf_eq (check : Check) : identityOf check = check.identity.map Identity.key := by
  unfold identityOf Check.identity provenIdentity
  cases check.source with
  | status => rfl
  | check =>
    cases check.appId with
    | none => rfl
    | some app =>
      cases check.workflow with
      | none => rfl
      | some workflow => rfl

theorem identity_read (check : Check) : check.read.identity = check.identity := rfl

theorem split_unique {c : Char} {l l' r r' : List Char} (hl : c ∉ l) (hl' : c ∉ l')
    (h : l ++ c :: r = l' ++ c :: r') : l = l' ∧ r = r' := by
  rcases List.append_eq_append_iff.mp h with ⟨mid, hmid, htail⟩ | ⟨mid, hmid, htail⟩
  · cases mid with
    | nil => exact ⟨by simpa using hmid.symm, (List.cons.inj htail).2⟩
    | cons d mid =>
      rw [List.cons_append] at htail
      rw [hmid, ← (List.cons.inj htail).1] at hl'
      exact absurd (List.mem_append_right _ List.mem_cons_self) hl'
  · cases mid with
    | nil => exact ⟨by simpa using hmid, (List.cons.inj htail).2.symm⟩
    | cons d mid =>
      rw [List.cons_append] at htail
      rw [hmid, ← (List.cons.inj htail).1] at hl
      exact absurd (List.mem_append_right _ List.mem_cons_self) hl

theorem toList_toString (n : Int) : (toString n).toList =
    if 0 ≤ n then Nat.toDigits 10 n.toNat else '-' :: Nat.toDigits 10 (-n).toNat := by
  rw [Int.toString_eq_repr, Int.repr_eq_if]
  split
  · rw [Nat.toList_repr]
  · rw [String.toList_append, Nat.toList_repr]
    rfl

theorem isDigit_of_mem {n : Nat} {c : Char} (h : c ∈ Nat.toDigits 10 n) : c.isDigit = true :=
  Nat.isDigit_of_mem_toDigits (by decide) (by decide) h

theorem separator_not_mem_toString (n : Int) : SEPARATOR ∉ (toString n).toList := by
  rw [toList_toString]
  split
  · intro h
    exact absurd (isDigit_of_mem h) (by decide)
  · intro h
    rcases List.mem_cons.mp h with h | h
    · exact absurd h (by decide)
    · exact absurd (isDigit_of_mem h) (by decide)

theorem minus_not_mem (n : Nat) : '-' ∉ Nat.toDigits 10 n :=
  fun h => absurd (isDigit_of_mem h) (by decide)

theorem toString_inj {m n : Int} (h : (toString m).toList = (toString n).toList) : m = n := by
  rw [toList_toString, toList_toString] at h
  split at h
  · split at h
    · have := Lifecycle.toDigits_inj h
      omega
    · exact absurd (h ▸ List.mem_cons_self) (minus_not_mem m.toNat)
  · split at h
    · exact absurd (h ▸ List.mem_cons_self) (minus_not_mem n.toNat)
    · have := Lifecycle.toDigits_inj (List.cons.inj h).2
      omega

theorem separator_not_mem_status : SEPARATOR ∉ "status".toList := by
  decide

theorem separator_not_mem_check : SEPARATOR ∉ "check".toList := by
  decide

theorem toList_key_status (name : String) :
    (Identity.status name).key.toList = "status".toList ++ SEPARATOR :: name.toList :=
  String.toList_ofList

theorem toList_key_check (app : Int) (workflow name : String) :
    (Identity.check app workflow name).key.toList = "check".toList ++ SEPARATOR ::
      ((toString app).toList ++ SEPARATOR :: (workflow.toList ++ SEPARATOR :: name.toList)) :=
  String.toList_ofList

theorem key_status_ne_check (name : String) (app : Int) (workflow name' : String) :
    (Identity.status name).key ≠ (Identity.check app workflow name').key := by
  intro h
  have hlist := congrArg String.toList h
  rw [toList_key_status, toList_key_check] at hlist
  have hheads := (split_unique separator_not_mem_status separator_not_mem_check hlist).1
  exact absurd hheads (by decide)

/-- Keys tell apart everything but the two names of a check run of one app. -/
theorem key_eq_key {a b : Identity} (h : a.key = b.key) : a = b ∨
    ∃ app workflow name workflow' name', a = .check app workflow name ∧
      b = .check app workflow' name' ∧
      workflow.toList ++ SEPARATOR :: name.toList = workflow'.toList ++ SEPARATOR :: name'.toList := by
  cases a with
  | status name =>
    cases b with
    | status name' =>
      have hlist := congrArg String.toList h
      rw [toList_key_status, toList_key_status] at hlist
      rw [String.toList_injective
        (split_unique separator_not_mem_status separator_not_mem_status hlist).2]
      exact Or.inl rfl
    | check app' workflow' name' => exact absurd h (key_status_ne_check name app' workflow' name')
  | check app workflow name =>
    cases b with
    | status name' => exact absurd h.symm (key_status_ne_check name' app workflow name)
    | check app' workflow' name' =>
      have hlist := congrArg String.toList h
      rw [toList_key_check, toList_key_check] at hlist
      have hrest := (split_unique separator_not_mem_check separator_not_mem_check hlist).2
      obtain ⟨happ, hnames⟩ := split_unique (separator_not_mem_toString app)
        (separator_not_mem_toString app') hrest
      rw [toString_inj happ]
      exact Or.inr ⟨app', workflow, name, workflow', name', rfl, rfl, hnames⟩

/-! ### What the fold keeps -/

/-- A status context has no app and no workflow. -/
def Formed (check : Check) : Prop :=
  check.source = .status → check.appId = none ∧ check.workflow = none

theorem formed_of_checkOf {texts : Texts} {entry : Entry} {check : Check}
    (h : checkOf texts entry = some check) : Formed check := by
  unfold checkOf at h
  intro hsource
  dsimp only at h
  split at h
  · split at h
    · exact nomatch h
    · rw [← Option.some.inj h]
      exact ⟨rfl, rfl⟩
  · split at h
    · exact nomatch h
    · rw [← Option.some.inj h] at hsource
      exact nomatch hsource

theorem formed_of_mem {texts : Texts} {entries : List (Option Entry)} {check : Check}
    (h : check ∈ checksOf texts entries) : Formed check := by
  obtain ⟨entry, -, hentry⟩ := List.mem_filterMap.mp h
  obtain ⟨entry, rfl, hcheck⟩ := Option.bind_eq_some_iff.mp hentry
  exact formed_of_checkOf hcheck

/-- What a check reads as, but for its verdict. -/
def Check.origin (check : Check) : ReadCheck := { check.read with verdict := .pending }

theorem identity_origin (check : Check) : check.origin.identity = check.identity := rfl

def Identity.origin : Identity → ReadCheck
  | .status name =>
      { name, verdict := .pending, source := .status, appId := none, workflow := none }
  | .check app workflow name =>
      { name, verdict := .pending, source := .check, appId := some app, workflow := some workflow }

theorem origin_of_identity {check : Check} (hformed : Formed check) {identity : Identity}
    (h : check.identity = some identity) : check.origin = identity.origin := by
  obtain ⟨name, source, verdict, startedAt, appId, workflow, ambiguous⟩ := check
  cases source with
  | status =>
    obtain ⟨happ, hworkflow⟩ := hformed rfl
    dsimp only at happ hworkflow
    rw [← Option.some.inj h, happ, hworkflow]
    rfl
  | check =>
    cases appId with
    | none => exact nomatch h
    | some app =>
      cases workflow with
      | none => exact nomatch h
      | some workflow =>
        rw [← Option.some.inj h]
        rfl

/-- The checks that share a key. -/
def group (checks : List Check) (key : String) : List Check :=
  checks.filter fun check => identityOf check = some key

abbrev Stands (checks : List Check) (startedAt : Int) (verdict : CheckVerdict) : Prop :=
  LatestValues.Stands Check.startedAt Check.verdict .pending checks startedAt verdict

/-- An entry of the map stands for the checks of its key. -/
structure Held (checks : List Check) (key : String) (check : Check) : Prop where
  identified : identityOf check = some key
  origin : ∃ other ∈ checks, identityOf other = some key ∧ check.origin = other.origin
  stands : Stands (group checks key) check.startedAt check.verdict

structure Keeps (checks : List Check) (kept : Kept) : Prop where
  held : ∀ key check, kept.byIdentity.at? key = some check → Held checks key check
  known : ∀ check ∈ checks, ∀ key, identityOf check = some key →
    ∃ held, kept.byIdentity.at? key = some held
  unproven : kept.unproven = checks.filter fun check => identityOf check = none

theorem group_concat (checks : List Check) (check : Check) (key : String) :
    group (checks ++ [check]) key =
      if identityOf check = some key then group checks key ++ [check] else group checks key := by
  unfold group
  rw [List.filter_append, List.filter_singleton]
  by_cases h : identityOf check = some key
  · simp [h]
  · simp [h]

theorem Held.concat {checks : List Check} {key : String} {held : Check} (h : Held checks key held)
    {check : Check} (hne : identityOf check ≠ some key) : Held (checks ++ [check]) key held := by
  obtain ⟨other, hother, hrest⟩ := h.origin
  refine ⟨h.identified, ⟨other, List.mem_append_left _ hother, hrest⟩, ?_⟩
  rw [group_concat, if_neg hne]
  exact h.stands

theorem unproven_concat (checks : List Check) (check : Check) :
    (checks ++ [check]).filter (fun check => identityOf check = none) =
      checks.filter (fun check => identityOf check = none) ++
        if identityOf check = none then [check] else [] := by
  rw [List.filter_append, List.filter_singleton]
  simp

/-- A write under the key of the next check, where what is written stands for the key. -/
theorem Keeps.set {checks : List Check} {kept : Kept} (h : Keeps checks kept) {check held : Check}
    {key : String} (hkey : identityOf check = some key) (hheld : Held (checks ++ [check]) key held) :
    Keeps (checks ++ [check]) { kept with byIdentity := kept.byIdentity.set (key, held) } := by
  refine ⟨?_, ?_, ?_⟩
  · intro key' check' hat
    rw [Entries.at?_set] at hat
    split at hat
    · rename_i hsame
      rw [hsame, ← Option.some.inj hat]
      exact hheld
    · rename_i hother
      apply (h.held key' check' hat).concat
      rw [hkey]
      exact fun hsame => hother (Option.some.inj hsame).symm
  · intro other hmem key' hkey'
    rw [Entries.at?_set]
    split
    · exact ⟨held, rfl⟩
    · rename_i hother
      rcases List.mem_append.mp hmem with hmem | hmem
      · exact h.known other hmem key' hkey'
      · rw [List.mem_singleton.mp hmem, hkey] at hkey'
        exact absurd (Option.some.inj hkey').symm hother
  · rw [unproven_concat, hkey, if_neg (by simp), List.append_nil]
    exact h.unproven

/-- A check that leaves the map as it is. -/
theorem Keeps.same {checks : List Check} {kept : Kept} (h : Keeps checks kept) {check held : Check}
    {key : String} (hkey : identityOf check = some key) (hat : kept.byIdentity.at? key = some held)
    (hheld : Held (checks ++ [check]) key held) : Keeps (checks ++ [check]) kept := by
  refine ⟨?_, ?_, ?_⟩
  · intro key' check' hat'
    by_cases hsame : key' = key
    · subst hsame
      rw [← Option.some.inj (hat.symm.trans hat')]
      exact hheld
    · apply (h.held key' check' hat').concat
      rw [hkey]
      exact fun h => hsame (Option.some.inj h).symm
  · intro other hmem key' hkey'
    rcases List.mem_append.mp hmem with hmem | hmem
    · exact h.known other hmem key' hkey'
    · rw [List.mem_singleton.mp hmem, hkey] at hkey'
      rw [← Option.some.inj hkey']
      exact ⟨held, hat⟩
  · rw [unproven_concat, hkey, if_neg (by simp), List.append_nil]
    exact h.unproven

/-- A check that no key stands for. -/
theorem Keeps.add {checks : List Check} {kept : Kept} (h : Keeps checks kept) {check : Check}
    (hkey : identityOf check = none) :
    Keeps (checks ++ [check]) { kept with unproven := kept.unproven ++ [check] } := by
  refine ⟨?_, ?_, ?_⟩
  · intro key held hat
    apply (h.held key held hat).concat
    rw [hkey]
    exact fun h => nomatch h
  · intro other hmem key hother
    rcases List.mem_append.mp hmem with hmem | hmem
    · exact h.known other hmem key hother
    · rw [List.mem_singleton.mp hmem, hkey] at hother
      exact nomatch hother
  · rw [unproven_concat, if_pos hkey, h.unproven]

theorem stands_concat {checks : List Check} {check : Check} {key : String}
    (hkey : identityOf check = some key) {startedAt : Int} {verdict : CheckVerdict}
    (h : Stands (group checks key ++ [check]) startedAt verdict) :
    Stands (group (checks ++ [check]) key) startedAt verdict := by
  rw [group_concat, if_pos hkey]
  exact h

theorem Keeps.step {checks : List Check} {kept : Kept} (h : Keeps checks kept) (check : Check) :
    Keeps (checks ++ [check]) (keep kept check) := by
  have hnew : check ∈ checks ++ [check] := List.mem_append_right _ List.mem_cons_self
  unfold keep
  cases hkey : identityOf check with
  | none => exact h.add hkey
  | some key =>
    dsimp only
    cases hat : kept.byIdentity.at? key with
    | none =>
      have hfirst : group checks key = [] := by
        apply List.filter_eq_nil_iff.mpr
        intro other hother hsame
        obtain ⟨held, hheld⟩ := h.known other hother key (of_decide_eq_true hsame)
        exact nomatch hat.symm.trans hheld
      apply h.set hkey
      refine ⟨hkey, ⟨check, hnew, hkey, rfl⟩, stands_concat hkey ?_⟩
      rw [hfirst]
      exact LatestValues.stands_single
    | some previous =>
      have hprevious := h.held key previous hat
      dsimp only
      split
      · rename_i hlater
        apply h.set hkey
        exact ⟨hkey, ⟨check, hnew, hkey, rfl⟩, stands_concat hkey (hprevious.stands.later hlater)⟩
      · rename_i hlater
        split
        · rename_i htie
          apply h.set hkey
          refine ⟨hkey, ⟨check, hnew, hkey, rfl⟩, stands_concat hkey ?_⟩
          dsimp only
          rw [htie.1]
          exact hprevious.stands.disagrees htie.1 htie.2
        · rename_i htie
          apply h.same hkey hat
          obtain ⟨other, hother, horigin⟩ := hprevious.origin
          refine ⟨hprevious.identified, ⟨other, List.mem_append_left _ hother, horigin⟩,
            stands_concat hkey (hprevious.stands.keeps (not_lt.mp hlater) ?_)⟩
          intro hsame
          by_contra hne
          exact htie ⟨hsame, hne⟩

theorem keeps_keepAll (checks : List Check) : Keeps checks (keepAll checks) := by
  induction checks using List.reverseRecOn with
  | nil =>
    refine ⟨?_, ?_, rfl⟩
    · intro key held hat
      exact nomatch hat
    · intro check hmem
      exact nomatch hmem
  | append_singleton checks check ih =>
    rw [keepAll, List.foldl_append]
    exact ih.step check

/-! ### The rollup -/

/-- The workflow and name of a check run of one app, read as one text, are those of one check run. -/
def Separated (checks : List Check) : Prop :=
  ∀ a ∈ checks, ∀ b ∈ checks, ∀ app workflow name workflow' name',
    a.identity = some (.check app workflow name) → b.identity = some (.check app workflow' name') →
    workflow.toList ++ SEPARATOR :: name.toList = workflow'.toList ++ SEPARATOR :: name'.toList →
    workflow = workflow' ∧ name = name'

def ReadCheck.origin (read : ReadCheck) : ReadCheck := { read with verdict := .pending }

/-- The reads say of each known check what its latest entries say, keep the others, and hide no
latest result that is not green. -/
structure Faithful (checks : List Check) (reads : List ReadCheck) : Prop where
  one : ∀ check ∈ checks, ∀ identity, check.identity = some identity → ∃ read startedAt,
    reads.filter (fun read => read.identity = some identity) = [read] ∧
      Stands (checks.filter fun other => other.identity = some identity) startedAt read.verdict
  known : ∀ read ∈ reads, ∀ identity, read.identity = some identity →
    ∃ check ∈ checks, check.identity = some identity
  unproven : (reads.filter fun read => read.identity = none).Perm
    ((checks.filter fun check => check.identity = none).map Check.read)
  unmasked : ∀ check ∈ checks, check.verdict ≠ .green →
    (∀ identity, check.identity = some identity → ∀ other ∈ checks,
      other.identity = some identity → other.startedAt ≤ check.startedAt) →
    ∃ read ∈ reads, read.origin = check.origin ∧ read.verdict ≠ .green

theorem key_of_identity {check : Check} {identity : Identity} (h : check.identity = some identity) :
    identityOf check = some identity.key := by
  rw [identityOf_eq, h]
  rfl

theorem identityOf_eq_none {check : Check} : identityOf check = none ↔ check.identity = none := by
  rw [identityOf_eq, Option.map_eq_none_iff]

theorem identity_of_key {checks : List Check} (hsep : Separated checks) {a b : Check}
    (ha : a ∈ checks) (hb : b ∈ checks) {key : String} (hakey : identityOf a = some key)
    (hbkey : identityOf b = some key) : a.identity = b.identity := by
  rw [identityOf_eq, Option.map_eq_some_iff] at hakey hbkey
  obtain ⟨i, hai, hikey⟩ := hakey
  obtain ⟨j, hbj, hjkey⟩ := hbkey
  rw [hai, hbj]
  rcases key_eq_key (hikey.trans hjkey.symm) with hsame | ⟨app, workflow, name, workflow', name', hi, hj, heq⟩
  · rw [hsame]
  · rw [hi] at hai
    rw [hj] at hbj
    obtain ⟨hworkflow, hname⟩ := hsep a ha b hb app workflow name workflow' name' hai hbj heq
    rw [hi, hj, hworkflow, hname]

theorem Held.identity {checks : List Check} (hsep : Separated checks) {key : String} {held check : Check}
    (h : Held checks key held) (hmem : check ∈ checks) (hkey : identityOf check = some key) :
    held.identity = check.identity := by
  obtain ⟨other, hother, hotherkey, horigin⟩ := h.origin
  rw [← identity_of_key hsep hother hmem hotherkey hkey, ← identity_origin held, horigin,
    identity_origin]

theorem mem_group_iff {checks : List Check} (hsep : Separated checks) {check : Check}
    (hmem : check ∈ checks) {identity : Identity} (h : check.identity = some identity) (other : Check) :
    other ∈ group checks identity.key ↔
      other ∈ checks.filter fun other => other.identity = some identity := by
  unfold group
  rw [List.mem_filter, List.mem_filter, decide_eq_true_eq, decide_eq_true_eq]
  constructor
  · rintro ⟨hother, hkey⟩
    exact ⟨hother, (identity_of_key hsep hother hmem hkey (key_of_identity h)).trans h⟩
  · rintro ⟨hother, hidentity⟩
    exact ⟨hother, key_of_identity hidentity⟩

/-- The map's entries for one check: one. -/
theorem rows_of_identity {checks : List Check} {kept : Kept} (h : Keeps checks kept)
    (hsep : Separated checks) {check : Check} (hmem : check ∈ checks) {identity : Identity}
    (hidentity : check.identity = some identity) :
    ∃ held, Held checks identity.key held ∧
      kept.byIdentity.rows.filter (fun row => row.2.identity = some identity) = [(identity.key, held)] := by
  have hkey := key_of_identity hidentity
  obtain ⟨held, hat⟩ := h.known check hmem identity.key hkey
  have hheld := h.held identity.key held hat
  refine ⟨held, hheld, List.perm_singleton.mp ?_⟩
  rw [List.perm_ext_iff_of_nodup ((Table.rows_nodup kept.byIdentity).filter _) (List.nodup_singleton _)]
  intro row
  rw [List.mem_filter, decide_eq_true_eq, List.mem_singleton]
  constructor
  · rintro ⟨hrow, hrowidentity⟩
    have hrowat : kept.byIdentity.at? row.1 = some row.2 := Entries.at?_eq_some.mpr hrow
    have hrowkey := (h.held row.1 row.2 hrowat).identified
    rw [key_of_identity hrowidentity] at hrowkey
    rw [← Option.some.inj hrowkey, hat] at hrowat
    exact Prod.ext (Option.some.inj hrowkey).symm (Option.some.inj hrowat).symm
  · intro hrow
    rw [hrow]
    exact ⟨Entries.at?_eq_some.mp hat, (hheld.identity hsep hmem hkey).trans hidentity⟩

def Kept.reads (kept : Kept) : List ReadCheck :=
  kept.byIdentity.rows.map (fun row => row.2.read) ++ kept.unproven.map Check.read

theorem perm_reads (texts : Texts) (entries : List (Option Entry)) :
    (rollupChecksWithIdentity texts (some entries)).Perm (keepAll (checksOf texts entries)).reads := by
  unfold rollupChecksWithIdentity Kept.reads
  dsimp only [Option.getD_some]
  rw [List.map_append, List.map_map]
  exact List.mergeSort_perm _ _

theorem filter_reads_some {checks : List Check} {kept : Kept} (h : Keeps checks kept)
    (identity : Identity) :
    kept.reads.filter (fun read => read.identity = some identity) =
      (kept.byIdentity.rows.filter fun row => row.2.identity = some identity).map
        fun row => row.2.read := by
  have hnone : (kept.unproven.map Check.read).filter (fun read => read.identity = some identity) = [] := by
    apply List.filter_eq_nil_iff.mpr
    intro read hread
    obtain ⟨check, hcheck, rfl⟩ := List.mem_map.mp hread
    rw [h.unproven, List.mem_filter, decide_eq_true_eq, identityOf_eq_none] at hcheck
    simp [identity_read, hcheck.2]
  rw [Kept.reads, List.filter_append, hnone, List.append_nil, List.filter_map]
  rfl

theorem filter_reads_none {checks : List Check} {kept : Kept} (h : Keeps checks kept) :
    kept.reads.filter (fun read => read.identity = none) =
      (checks.filter fun check => check.identity = none).map Check.read := by
  have hnone : (kept.byIdentity.rows.map fun row => row.2.read).filter
      (fun read => read.identity = none) = [] := by
    apply List.filter_eq_nil_iff.mpr
    intro read hread
    obtain ⟨row, hrow, rfl⟩ := List.mem_map.mp hread
    have hkey := (h.held row.1 row.2 (Entries.at?_eq_some.mpr hrow)).identified
    rw [decide_eq_true_eq, identity_read, ← identityOf_eq_none, hkey]
    exact fun h => nomatch h
  have hall : (kept.unproven.map Check.read).filter (fun read => read.identity = none) =
      kept.unproven.map Check.read := by
    apply List.filter_eq_self.mpr
    intro read hread
    obtain ⟨check, hcheck, rfl⟩ := List.mem_map.mp hread
    rw [h.unproven, List.mem_filter, decide_eq_true_eq, identityOf_eq_none] at hcheck
    rw [decide_eq_true_eq, identity_read]
    exact hcheck.2
  rw [Kept.reads, List.filter_append, hnone, hall, List.nil_append, h.unproven]
  congr 1
  apply List.filter_congr
  intro check _
  rw [decide_eq_decide, identityOf_eq_none]

theorem mem_reads {checks : List Check} {kept : Kept} (h : Keeps checks kept) {read : ReadCheck}
    (hread : read ∈ kept.reads) {identity : Identity} (hidentity : read.identity = some identity) :
    ∃ held, Held checks identity.key held ∧ (identity.key, held) ∈ kept.byIdentity.rows ∧
      held.read = read := by
  have hmem : read ∈ kept.reads.filter fun read => read.identity = some identity := by
    rw [List.mem_filter, decide_eq_true_eq]
    exact ⟨hread, hidentity⟩
  rw [filter_reads_some h] at hmem
  obtain ⟨⟨key, held⟩, hrow, rfl⟩ := List.mem_map.mp hmem
  rw [List.mem_filter, decide_eq_true_eq] at hrow
  have hheld := h.held key held (Entries.at?_eq_some.mpr hrow.1)
  have hkey := hheld.identified
  rw [key_of_identity hrow.2] at hkey
  have hsame := Option.some.inj hkey
  subst hsame
  exact ⟨held, hheld, hrow.1, rfl⟩

theorem Faithful.of_perm {checks : List Check} {reads reads' : List ReadCheck} (hperm : reads.Perm reads')
    (h : Faithful checks reads) : Faithful checks reads' := by
  refine ⟨?_, ?_, (hperm.filter _).symm.trans h.unproven, ?_⟩
  · intro check hcheck identity hidentity
    obtain ⟨read, startedAt, hone, hstands⟩ := h.one check hcheck identity hidentity
    have hfilter := hperm.filter fun read => read.identity = some identity
    rw [hone] at hfilter
    exact ⟨read, startedAt, List.perm_singleton.mp hfilter.symm, hstands⟩
  · exact fun read hread => h.known read (hperm.mem_iff.mpr hread)
  · intro check hcheck hverdict hlatest
    obtain ⟨read, hread, hrest⟩ := h.unmasked check hcheck hverdict hlatest
    exact ⟨read, hperm.mem_iff.mp hread, hrest⟩

theorem origin_of_key {checks : List Check} (hsep : Separated checks)
    (hformed : ∀ check ∈ checks, Formed check) {a b : Check} (ha : a ∈ checks) (hb : b ∈ checks)
    {key : String} (hakey : identityOf a = some key) (hbkey : identityOf b = some key) :
    a.origin = b.origin := by
  have hsame := identity_of_key hsep ha hb hakey hbkey
  rw [identityOf_eq, Option.map_eq_some_iff] at hakey
  obtain ⟨identity, hidentity, -⟩ := hakey
  rw [origin_of_identity (hformed a ha) hidentity,
    origin_of_identity (hformed b hb) (hsame.symm.trans hidentity)]

theorem read_eq {a b : Check} (horigin : a.origin = b.origin) (hverdict : a.verdict = b.verdict) :
    a.read = b.read := by
  have hread : ∀ check : Check, check.read = { check.origin with verdict := check.verdict } :=
    fun _ => rfl
  rw [hread a, hread b, horigin, hverdict]

/-- The latest of a check's entries are not hidden by an older one. -/
theorem Held.not_green {checks : List Check} {key : String} {held check : Check}
    (h : Held checks key held) (hmem : check ∈ group checks key) (hverdict : check.verdict ≠ .green)
    (hlatest : ∀ other ∈ group checks key, other.startedAt ≤ check.startedAt) :
    held.verdict ≠ .green := by
  intro hgreen
  obtain ⟨last, hlast, hlastAt⟩ := h.stands.newest.reached
  have hat : check.startedAt = held.startedAt := by
    apply le_antisymm
    · exact h.stands.newest.bound check hmem
    · rw [← hlastAt]
      exact hlatest last hlast
  have hmixed := h.stands.ne_of_mem hmem hat (by rw [hgreen]; exact hverdict)
  exact nomatch hgreen.symm.trans hmixed

theorem faithful_reads {checks : List Check} {kept : Kept} (h : Keeps checks kept)
    (hformed : ∀ check ∈ checks, Formed check) (hsep : Separated checks) :
    Faithful checks kept.reads := by
  refine ⟨?_, ?_, ?_, ?_⟩
  · intro check hcheck identity hidentity
    obtain ⟨held, hheld, hrows⟩ := rows_of_identity h hsep hcheck hidentity
    refine ⟨held.read, held.startedAt, ?_, ?_⟩
    · rw [filter_reads_some h, hrows]
      rfl
    · exact hheld.stands.of_mem_iff (mem_group_iff hsep hcheck hidentity)
  · intro read hread identity hidentity
    obtain ⟨held, hheld, -, rfl⟩ := mem_reads h hread hidentity
    obtain ⟨other, hother, hkey, -⟩ := hheld.origin
    exact ⟨other, hother, (hheld.identity hsep hother hkey).symm.trans hidentity⟩
  · rw [filter_reads_none h]
  · intro check hcheck hverdict hlatest
    cases hidentity : check.identity with
    | none =>
      have hmem : check.read ∈ kept.reads.filter fun read => read.identity = none := by
        rw [filter_reads_none h]
        apply List.mem_map_of_mem
        rw [List.mem_filter, decide_eq_true_eq]
        exact ⟨hcheck, hidentity⟩
      exact ⟨check.read, (List.mem_filter.mp hmem).1, rfl, hverdict⟩
    | some identity =>
      obtain ⟨held, hheld, hrows⟩ := rows_of_identity h hsep hcheck hidentity
      have hrow : (identity.key, held) ∈ kept.byIdentity.rows := by
        have hmem : (identity.key, held) ∈
            kept.byIdentity.rows.filter fun row => row.2.identity = some identity := by
          rw [hrows]
          exact List.mem_cons_self
        exact (List.mem_filter.mp hmem).1
      have hin := mem_group_iff hsep hcheck hidentity
      refine ⟨held.read, List.mem_append_left _ (List.mem_map_of_mem hrow), ?_, ?_⟩
      · obtain ⟨other, hother, hkey, horigin⟩ := hheld.origin
        exact horigin.trans
          (origin_of_key hsep hformed hother hcheck hkey (key_of_identity hidentity))
      · apply hheld.not_green ((hin check).mpr ?_) hverdict
        · intro other hother
          have hmem := (hin other).mp hother
          rw [List.mem_filter, decide_eq_true_eq] at hmem
          exact hlatest identity hidentity other hmem.1 hmem.2
        · rw [List.mem_filter, decide_eq_true_eq]
          exact ⟨hcheck, hidentity⟩

/-! ### The order of the entries -/

def Kept.keyed (kept : Kept) : List (String × ReadCheck) :=
  kept.byIdentity.rows.map fun row => (row.1, row.2.read)

theorem keyed_nodup (kept : Kept) : kept.keyed.Nodup := by
  apply List.Nodup.of_map Prod.fst
  rw [Kept.keyed, List.map_map]
  exact kept.byIdentity.nodup

theorem Separated.of_mem_iff {checks checks' : List Check} (h : Separated checks)
    (hmem : ∀ check, check ∈ checks ↔ check ∈ checks') : Separated checks' :=
  fun a ha b hb => h a ((hmem a).mpr ha) b ((hmem b).mpr hb)

theorem keyed_subset {checks checks' : List Check} {kept kept' : Kept} (h : Keeps checks kept)
    (h' : Keeps checks' kept') (hformed : ∀ check ∈ checks, Formed check) (hsep : Separated checks)
    (hmem : ∀ check, check ∈ checks ↔ check ∈ checks') {row : String × ReadCheck}
    (hrow : row ∈ kept.keyed) : row ∈ kept'.keyed := by
  obtain ⟨⟨key, held⟩, hheldrow, rfl⟩ := List.mem_map.mp hrow
  have hheld := h.held key held (Entries.at?_eq_some.mpr hheldrow)
  obtain ⟨other, hother, hkey, horigin⟩ := hheld.origin
  obtain ⟨held', hat'⟩ := h'.known other ((hmem other).mp hother) key hkey
  have hheld' := h'.held key held' hat'
  obtain ⟨other', hother', hkey', horigin'⟩ := hheld'.origin
  have hread : held.read = held'.read := by
    apply read_eq
    · rw [horigin, horigin',
        origin_of_key hsep hformed hother ((hmem other').mpr hother') hkey hkey']
    · have hgroup : ∀ check, check ∈ group checks key ↔ check ∈ group checks' key := by
        intro check
        unfold group
        rw [List.mem_filter, List.mem_filter, hmem]
      exact (hheld.stands.of_mem_iff hgroup).unique hheld'.stands
  rw [hread]
  exact List.mem_map_of_mem (Entries.at?_eq_some.mp hat')

theorem reads_perm {checks checks' : List Check} {kept kept' : Kept} (h : Keeps checks kept)
    (h' : Keeps checks' kept') (hformed : ∀ check ∈ checks, Formed check) (hsep : Separated checks)
    (hperm : checks.Perm checks') : kept.reads.Perm kept'.reads := by
  have hmem : ∀ check, check ∈ checks ↔ check ∈ checks' := fun check => hperm.mem_iff
  have hformed' : ∀ check ∈ checks', Formed check :=
    fun check hcheck => hformed check ((hmem check).mpr hcheck)
  have hkeyed : kept.keyed.Perm kept'.keyed := by
    rw [List.perm_ext_iff_of_nodup (keyed_nodup kept) (keyed_nodup kept')]
    intro row
    constructor
    · exact keyed_subset h h' hformed hsep hmem
    · exact keyed_subset h' h hformed' (hsep.of_mem_iff hmem) fun check => (hmem check).symm
  have hstanding : ∀ kept : Kept, kept.byIdentity.rows.map (fun row => row.2.read) =
      kept.keyed.map Prod.snd := by
    intro kept
    rw [Kept.keyed, List.map_map]
    rfl
  unfold Kept.reads
  rw [hstanding, hstanding, h.unproven, h'.unproven]
  exact (hkeyed.map _).append ((hperm.filter _).map _)

/-- The rollup says what its entries say, in whatever order they come. -/
structure RollsUp (texts : Texts) (entries : List (Option Entry)) : Prop where
  faithful : Faithful (checksOf texts entries) (rollupChecksWithIdentity texts (some entries))
  independent : ∀ entries', entries'.Perm entries →
    (rollupChecksWithIdentity texts (some entries')).Perm
      (rollupChecksWithIdentity texts (some entries))

theorem separated_of_faithful {checks : List Check} {kept : Kept} (hkeeps : Keeps checks kept)
    (h : Faithful checks kept.reads) : Separated checks := by
  intro a ha b hb app workflow name workflow' name' hai hbi heq
  have hread : ∀ check ∈ checks, ∀ identity, check.identity = some identity →
      ∃ held, (identity.key, held) ∈ kept.byIdentity.rows ∧ held.identity = some identity := by
    intro check hcheck identity hidentity
    obtain ⟨read, -, hone, -⟩ := h.one check hcheck identity hidentity
    have hmem : read ∈ kept.reads.filter fun read => read.identity = some identity := by
      rw [hone]
      exact List.mem_cons_self
    rw [List.mem_filter, decide_eq_true_eq] at hmem
    obtain ⟨held, -, hrow, hheld⟩ := mem_reads hkeeps hmem.1 hmem.2
    rw [← hheld] at hmem
    exact ⟨held, hrow, hmem.2⟩
  obtain ⟨held, hrow, hheld⟩ := hread a ha _ hai
  obtain ⟨held', hrow', hheld'⟩ := hread b hb _ hbi
  have hkey : (Identity.check app workflow name).key = (Identity.check app workflow' name').key := by
    apply String.toList_injective
    rw [toList_key_check, toList_key_check, heq]
  rw [hkey] at hrow
  have hsame := Option.some.inj ((Entries.at?_eq_some.mpr hrow).symm.trans (Entries.at?_eq_some.mpr hrow'))
  rw [hsame, hheld'] at hheld
  injection Option.some.inj hheld with _ hworkflow hname
  exact ⟨hworkflow.symm, hname.symm⟩

/-- **The rollup masks nothing exactly where the texts of its keys tell the check runs apart.** -/
theorem rollsUp_iff (texts : Texts) (entries : List (Option Entry)) :
    RollsUp texts entries ↔ Separated (checksOf texts entries) := by
  have hkeeps := keeps_keepAll (checksOf texts entries)
  constructor
  · intro h
    exact separated_of_faithful hkeeps (h.faithful.of_perm (perm_reads texts entries))
  · intro hsep
    have hformed : ∀ check ∈ checksOf texts entries, Formed check := fun _ => formed_of_mem
    refine ⟨(faithful_reads hkeeps hformed hsep).of_perm (perm_reads texts entries).symm, ?_⟩
    intro entries' hperm
    have hreads := reads_perm hkeeps (keeps_keepAll (checksOf texts entries')) hformed hsep
      (hperm.symm.filterMap _)
    exact ((perm_reads texts entries').trans hreads.symm).trans (perm_reads texts entries).symm

def plainTexts : Texts where
  parse text := if text = "later" then some 1 else if text = "earlier" then some 0 else none
  toUpperCase := id
  localeCompare _ _ := 0

def runOf (workflow name conclusion startedAt : String) : Entry where
  typename := .text "CheckRun"
  context := .undefined
  name := .text name
  state := .undefined
  startedAt := .text startedAt
  status := .text "COMPLETED"
  conclusion := .text conclusion
  app := some ⟨.integer 123⟩
  checkSuite := some ⟨some ⟨some ⟨.text workflow⟩⟩⟩

/-- A failed run of one workflow and a later green run of another share a key. -/
def sharedKey : List (Option Entry) :=
  [some (runOf "a\x00b" "c" "FAILURE" "earlier"), some (runOf "a" "b\x00c" "SUCCESS" "later")]

theorem sharedKey_masks : ¬RollsUp plainTexts sharedKey := by
  intro h
  have hfailed : (checksOf plainTexts sharedKey)[0]? = some
      { name := "c", source := .check, verdict := .red, startedAt := 0, appId := some 123,
        workflow := some "a\x00b" } := by
    decide
  have hgreen : (keepAll (checksOf plainTexts sharedKey)).reads.all
      (fun read => decide (read.verdict = .green)) = true := by
    decide
  have hlatest : (checksOf plainTexts sharedKey).all (fun other =>
      decide (other.identity = some (.check 123 "a\x00b" "c") → other.startedAt ≤ 0)) = true := by
    decide
  obtain ⟨read, hread, -, hverdict⟩ := h.faithful.unmasked _ (List.mem_of_getElem? hfailed) (by decide) (by
    intro identity hidentity other hother hsame
    rw [← Option.some.inj hidentity] at hsame
    exact of_decide_eq_true (List.all_eq_true.mp hlatest other hother) hsame)
  have hmem := (perm_reads plainTexts sharedKey).mem_iff.mp hread
  exact hverdict (of_decide_eq_true (List.all_eq_true.mp hgreen read hmem))

end Delegatus.CheckRollup
