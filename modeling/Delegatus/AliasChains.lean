import Mathlib.Logic.Relation
import Mathlib.Data.List.Nodup
import Mathlib.Data.List.Perm.Subperm

/-!
# Chains of a redirection

`next` sends a name to the name that stands for it.  `walk` follows it from a name until a name
that stands for itself, or until a name comes again.  With as many steps as `next` has sources
it finds the end exactly where there is one (`walk_eq_iff`), and every chain ends exactly when
no name leads back to itself (`acyclic_iff_ends`).
-/

namespace Delegatus.AliasChains

open Relation (ReflTransGen TransGen)

section

variable {α : Type*} {next next' next'' : α → Option α} {p q t u : α}

/-- One redirection. -/
def Redirects (next : α → Option α) (p q : α) : Prop := next p = some q

/-- The chain from `p` ends at `t`, which stands for itself. -/
def EndsAt (next : α → Option α) (p t : α) : Prop :=
  ReflTransGen (Redirects next) p t ∧ next t = none

/-- No name leads back to itself. -/
def Acyclic (next : α → Option α) : Prop := ∀ p, ¬ TransGen (Redirects next) p p

/-- Every redirection leads to a name that stands for itself. -/
def Flat (next : α → Option α) : Prop := ∀ p t, next p = some t → next t = none

theorem EndsAt.refl (h : next p = none) : EndsAt next p p := ⟨ReflTransGen.refl, h⟩

theorem endsAt_step (h : next p = some q) : EndsAt next p t ↔ EndsAt next q t := by
  constructor
  · rintro ⟨hchain, hend⟩
    rcases hchain.cases_head with rfl | ⟨q', hstep, hrest⟩
    · rw [h] at hend
      cases hend
    · obtain rfl := Option.some.inj (h.symm.trans hstep)
      exact ⟨hrest, hend⟩
  · rintro ⟨hchain, hend⟩
    exact ⟨ReflTransGen.head h hchain, hend⟩

theorem EndsAt.unique (h : EndsAt next p t) (h' : EndsAt next p u) : t = u := by
  obtain ⟨hchain, hend⟩ := h
  induction hchain using ReflTransGen.head_induction_on with
  | refl =>
    rcases h'.1.cases_head with rfl | ⟨q, hstep, -⟩
    · exact rfl
    · rw [Redirects, hend] at hstep
      cases hstep
  | head hstep _ ih => exact ih ((endsAt_step hstep).mp h')

/-- A chain with an end passes no cycle. -/
theorem EndsAt.not_cycle (h : EndsAt next p t) : ¬ TransGen (Redirects next) p p := by
  obtain ⟨hchain, hend⟩ := h
  induction hchain using ReflTransGen.head_induction_on with
  | refl =>
    intro hcycle
    obtain ⟨q, hstep, -⟩ := TransGen.head'_iff.mp hcycle
    rw [Redirects, hend] at hstep
    cases hstep
  | head hstep _ ih =>
    intro hcycle
    obtain ⟨q, hstep', hrest⟩ := TransGen.head'_iff.mp hcycle
    obtain rfl := Option.some.inj (Eq.trans (Eq.symm hstep) hstep')
    exact ih (TransGen.tail' hrest hstep)

theorem EndsAt.of_reach (h : EndsAt next p t) (hreach : ReflTransGen (Redirects next) p q) :
    EndsAt next q t := by
  induction hreach with
  | refl => exact h
  | tail _ hstep ih => exact (endsAt_step hstep).mp ih

theorem Flat.endsAt (hflat : Flat next) (p : α) : EndsAt next p ((next p).getD p) := by
  cases h : next p with
  | none => exact EndsAt.refl h
  | some t => exact (endsAt_step h).mpr (EndsAt.refl (hflat p t h))

theorem acyclic_of_ends (h : ∀ p, ∃ t, EndsAt next p t) : Acyclic next := by
  intro p
  obtain ⟨t, ht⟩ := h p
  exact ht.not_cycle

theorem Flat.acyclic (hflat : Flat next) : Acyclic next :=
  acyclic_of_ends fun p => ⟨_, hflat.endsAt p⟩

/-- `next'` sends each source of `next` to its end. -/
def Flattens (next next' : α → Option α) : Prop :=
  ∀ p t, next' p = some t ↔ next p ≠ none ∧ EndsAt next p t

theorem Flattens.flat (h : Flattens next next') : Flat next' := by
  intro p t ht
  obtain ⟨-, hend⟩ := (h p t).mp ht
  cases ht' : next' t with
  | none => exact rfl
  | some u => exact absurd hend.2 ((h t u).mp ht').1

theorem Flattens.unique (h : Flattens next next') (h' : Flattens next next'') : next' = next'' := by
  funext p
  apply Option.ext
  intro t
  rw [h p t, h' p t]

end

/-! ### The walk -/

section

variable {α : Type*} [DecidableEq α] {next : α → Option α} {sources seen : List α} {p t : α}

/-- The name where the loop stops, and whether it stops at one that it has seen. -/
def walk (next : α → Option α) : Nat → List α → α → α × Bool
  | 0, _, p => (p, true)
  | fuel + 1, seen, p =>
    match next p with
    | none => (p, false)
    | some q => if p ∈ seen then (p, true) else walk next fuel (p :: seen) q

theorem walk_ends {fuel : Nat} (h : walk next fuel seen p = (t, false)) : EndsAt next p t := by
  induction fuel generalizing seen p with
  | zero => cases h
  | succ fuel ih =>
    unfold walk at h
    cases hnext : next p with
    | none =>
      rw [hnext] at h
      obtain rfl := congrArg Prod.fst h
      exact EndsAt.refl hnext
    | some q =>
      rw [hnext] at h
      dsimp only at h
      split at h
      · cases h
      · exact (endsAt_step hnext).mpr (ih h)

/-- The walk repeats no name on a chain without cycles: the names it has seen all lead to the
next one, and there are no more of them than sources. -/
theorem walk_stops (hsources : ∀ p, next p ≠ none → p ∈ sources) {fuel : Nat}
    (hnodup : seen.Nodup) (hsub : seen ⊆ sources)
    (hseen : ∀ s ∈ seen, TransGen (Redirects next) s p)
    (hfree : ∀ q, ReflTransGen (Redirects next) p q → ¬ TransGen (Redirects next) q q)
    (hfuel : sources.length < fuel + seen.length) : (walk next fuel seen p).2 = false := by
  induction fuel generalizing seen p with
  | zero =>
    have hlength := (List.subperm_of_subset hnodup hsub).length_le
    omega
  | succ fuel ih =>
    unfold walk
    cases hnext : next p with
    | none => exact rfl
    | some q =>
      have hnew : p ∉ seen := fun hmem => hfree p ReflTransGen.refl (hseen p hmem)
      dsimp only
      rw [if_neg hnew]
      apply ih
      · exact List.nodup_cons.mpr ⟨hnew, hnodup⟩
      · exact List.cons_subset.mpr ⟨hsources p (by rw [hnext]; exact Option.some_ne_none q), hsub⟩
      · intro s hs
        rcases List.mem_cons.mp hs with rfl | hs
        · exact TransGen.single hnext
        · exact TransGen.tail (hseen s hs) hnext
      · exact fun q' hreach => hfree q' (ReflTransGen.head hnext hreach)
      · rw [List.length_cons]
        omega

theorem walk_stops_of_free (hsources : ∀ p, next p ≠ none → p ∈ sources)
    (hfree : ∀ q, ReflTransGen (Redirects next) p q → ¬ TransGen (Redirects next) q q) :
    (walk next (sources.length + 1) [] p).2 = false :=
  walk_stops hsources List.nodup_nil (List.nil_subset _) (fun _ hs => absurd hs List.not_mem_nil)
    hfree (Nat.lt_succ_self _)

/-- With a step for each source and one more, the walk finds the end where there is one. -/
theorem walk_eq_iff (hsources : ∀ p, next p ≠ none → p ∈ sources) :
    walk next (sources.length + 1) [] p = (t, false) ↔ EndsAt next p t := by
  constructor
  · exact walk_ends
  · intro hend
    have hstops := walk_stops_of_free hsources fun q hreach => (hend.of_reach hreach).not_cycle
    have hwalk : walk next (sources.length + 1) [] p =
        ((walk next (sources.length + 1) [] p).1, false) := Prod.ext rfl hstops
    rw [hwalk, (walk_ends hwalk).unique hend]

theorem acyclic_iff_ends (hsources : ∀ p, next p ≠ none → p ∈ sources) :
    Acyclic next ↔ ∀ p, ∃ t, EndsAt next p t := by
  constructor
  · intro hacyclic p
    exact ⟨_, walk_ends (Prod.ext rfl (walk_stops_of_free hsources fun q _ => hacyclic q))⟩
  · exact acyclic_of_ends

end

end Delegatus.AliasChains
