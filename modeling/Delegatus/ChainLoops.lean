import Delegatus.AliasChains
import Mathlib.Data.List.Chain

/-!
# Loops of a redirection

A chain that does not end runs into a loop.  `EntersAt` is where, and `walk` stops there
(`walk_enters`).  All names of one connected family end at one name, or all run into one loop
(`Connected.ends`, `Connected.enters`); where they enter it may differ.
-/

namespace Delegatus.AliasChains

open Relation (ReflTransGen TransGen EqvGen)

section

variable {α : Type*} {next : α → Option α} {p q c d t u : α}

/-- The name leads back to itself. -/
def Loops (next : α → Option α) (p : α) : Prop := TransGen (Redirects next) p p

/-- The chain from `p` runs into its loop at `c`. -/
inductive EntersAt (next : α → Option α) : α → α → Prop
  | here {c : α} : Loops next c → EntersAt next c c
  | step {p q c : α} : ¬ Loops next p → next p = some q → EntersAt next q c → EntersAt next p c

/-- The names are joined by redirections, whichever way they go. -/
abbrev Connected (next : α → Option α) : α → α → Prop := EqvGen (Redirects next)

theorem EntersAt.loops (h : EntersAt next p c) : Loops next c := by
  induction h with
  | here hloop => exact hloop
  | step _ _ _ ih => exact ih

theorem EntersAt.reach (h : EntersAt next p c) : ReflTransGen (Redirects next) p c := by
  induction h with
  | here _ => exact ReflTransGen.refl
  | step _ hnext _ ih => exact ReflTransGen.head hnext ih

theorem EntersAt.unique (h : EntersAt next p c) (h' : EntersAt next p d) : c = d := by
  induction h with
  | here hloop =>
    cases h' with
    | here _ => exact rfl
    | step hfree _ _ => exact absurd hloop hfree
  | step hfree hnext _ ih =>
    cases h' with
    | here hloop => exact absurd hloop hfree
    | step _ hnext' hrest =>
      obtain rfl := Option.some.inj (hnext.symm.trans hnext')
      exact ih hrest

/-- Whatever a name of a loop leads to is on the loop. -/
theorem Loops.back (h : Loops next p) (hreach : ReflTransGen (Redirects next) p q) :
    ReflTransGen (Redirects next) q p := by
  induction hreach with
  | refl => exact ReflTransGen.refl
  | @tail q' q hpq hstep ih =>
    have hcycle : TransGen (Redirects next) q' p := by
      rcases ReflTransGen.cases_head ih with rfl | ⟨r, hfirst, hrest⟩
      · exact h
      · exact TransGen.head' hfirst hrest
    obtain ⟨r, hfirst, hrest⟩ := TransGen.head'_iff.mp hcycle
    obtain rfl := Option.some.inj (Eq.trans (Eq.symm hstep) hfirst)
    exact hrest

theorem Loops.of_reach (h : Loops next p) (hreach : ReflTransGen (Redirects next) p q) :
    Loops next q :=
  TransGen.trans_right (h.back hreach) (TransGen.trans_left h hreach)

theorem EntersAt.not_ends (h : EntersAt next p c) : ¬ EndsAt next p t := by
  intro hend
  exact (hend.of_reach h.reach).not_cycle h.loops

/-! ### Families -/

theorem Connected.ends (h : Connected next p q) : EndsAt next p t ↔ EndsAt next q t := by
  induction h with
  | rel p q hstep => exact endsAt_step hstep
  | refl p => exact Iff.rfl
  | symm p q _ ih => exact ih.symm
  | trans p q r _ _ ih ih' => exact ih.trans ih'

theorem enters_of_step (hstep : next p = some q) (h : EntersAt next p c) :
    ∃ d, EntersAt next q d ∧ ReflTransGen (Redirects next) c d := by
  cases h with
  | here hloop =>
    have hreach : ReflTransGen (Redirects next) p q := ReflTransGen.single hstep
    exact ⟨q, EntersAt.here (hloop.of_reach hreach), hreach⟩
  | step _ hnext hrest =>
    obtain rfl := Option.some.inj (hstep.symm.trans hnext)
    exact ⟨c, hrest, ReflTransGen.refl⟩

theorem enters_of_step_back (hstep : next p = some q) (h : EntersAt next q d) :
    ∃ c, EntersAt next p c ∧ ReflTransGen (Redirects next) d c := by
  by_cases hloop : Loops next p
  · have hreach : ReflTransGen (Redirects next) p q := ReflTransGen.single hstep
    have hback : ReflTransGen (Redirects next) q p := hloop.back hreach
    obtain rfl := h.unique (EntersAt.here (hloop.of_reach hreach))
    exact ⟨p, EntersAt.here hloop, hback⟩
  · exact ⟨d, EntersAt.step hloop hstep h, ReflTransGen.refl⟩

/-- A family runs into one loop. -/
theorem Connected.enters (h : Connected next p q) :
    (∀ c, EntersAt next p c → ∃ d, EntersAt next q d ∧ ReflTransGen (Redirects next) c d) ∧
      ∀ d, EntersAt next q d → ∃ c, EntersAt next p c ∧ ReflTransGen (Redirects next) d c := by
  induction h with
  | rel p q hstep =>
    exact ⟨fun c hc => enters_of_step hstep hc, fun d hd => enters_of_step_back hstep hd⟩
  | refl p =>
    exact ⟨fun c hc => ⟨c, hc, ReflTransGen.refl⟩, fun c hc => ⟨c, hc, ReflTransGen.refl⟩⟩
  | symm p q _ ih => exact ⟨ih.2, ih.1⟩
  | trans p q r _ _ ih ih' =>
    constructor
    · intro c hc
      obtain ⟨d, hd, hcd⟩ := ih.1 c hc
      obtain ⟨e, he, hde⟩ := ih'.1 d hd
      exact ⟨e, he, hcd.trans hde⟩
    · intro e he
      obtain ⟨d, hd, hed⟩ := ih'.2 e he
      obtain ⟨c, hc, hdc⟩ := ih.2 d hd
      exact ⟨c, hc, hed.trans hdc⟩

theorem connected_of_reach (h : ReflTransGen (Redirects next) p q) : Connected next p q := by
  induction h with
  | refl => exact EqvGen.refl _
  | tail _ hstep ih => exact EqvGen.trans _ _ _ ih (EqvGen.rel _ _ hstep)

end

/-! ### The walk into a loop -/

section

variable {α : Type*} {next : α → Option α} {sources seen later earlier : List α} {p q t : α}

/-- The names were passed one after the other, the last one first. -/
def Passed (next : α → Option α) (names : List α) : Prop :=
  names.IsChain fun a b => next b = some a

theorem Passed.reach (h : Passed next (p :: earlier)) :
    ∀ s ∈ p :: earlier, ReflTransGen (Redirects next) s p := by
  induction earlier generalizing p with
  | nil =>
    intro s hs
    rw [List.mem_singleton.mp hs]
  | cons a earlier ih =>
    obtain ⟨hstep, hrest⟩ := List.isChain_cons_cons.mp h
    intro s hs
    rcases List.mem_cons.mp hs with rfl | hs
    · exact ReflTransGen.refl
    · exact ReflTransGen.tail (ih hrest s hs) hstep

/-- From the name that comes again, only the names passed since are reached. -/
theorem Passed.closed (h : Passed next (t :: (later ++ t :: earlier)))
    (hreach : ReflTransGen (Redirects next) t q) : q ∈ t :: later := by
  have hstep : ∀ {a b : α}, a ∈ t :: later → next a = some b → b ∈ t :: later := by
    intro a b ha hab
    have hmem : a ∈ later ++ [t] := by simpa [or_comm] using ha
    obtain ⟨before, after, hsplit⟩ := List.append_of_mem hmem
    have hwhole : t :: (later ++ t :: earlier) = (t :: before) ++ a :: (after ++ earlier) := by
      have := congrArg (fun l => t :: (l ++ earlier)) hsplit
      simpa using this
    rw [hwhole] at h
    have hjoin := (List.isChain_append.mp h).2.2
    have hlast := hjoin ((t :: before).getLast (List.cons_ne_nil _ _))
      (List.getLast?_eq_some_getLast _) a (by simp)
    obtain rfl := Option.some.inj (hab.symm.trans hlast)
    have hmem := List.getLast_mem (List.cons_ne_nil t before)
    rcases List.mem_cons.mp hmem with hmem | hmem
    · rw [hmem]
      exact List.mem_cons_self
    · have : (t :: before).getLast (List.cons_ne_nil _ _) ∈ later ++ [t] := by
        rw [hsplit]
        exact List.mem_append_left _ hmem
      simpa [or_comm] using this
  induction hreach with
  | refl => exact List.mem_cons_self
  | tail _ hab ih => exact hstep ih hab

theorem enters_of_passed (h : Passed next (p :: earlier)) (henters : EntersAt next p t)
    (hfree : ∀ s ∈ earlier, ¬ Loops next s) : ∀ s ∈ p :: earlier, EntersAt next s t := by
  induction earlier generalizing p with
  | nil =>
    intro s hs
    rw [List.mem_singleton.mp hs]
    exact henters
  | cons a earlier ih =>
    obtain ⟨hstep, hrest⟩ := List.isChain_cons_cons.mp h
    have hnext := EntersAt.step (hfree a List.mem_cons_self) hstep henters
    intro s hs
    rcases List.mem_cons.mp hs with rfl | hs
    · exact henters
    · exact ih hrest hnext (fun s hs => hfree s (List.mem_cons_of_mem _ hs)) s hs

/-- The names passed before the one that comes again are on no loop. -/
theorem Passed.enters (h : Passed next (t :: (later ++ t :: earlier)))
    (hnodup : (later ++ t :: earlier).Nodup) : ∀ s ∈ t :: earlier, EntersAt next s t := by
  have hpart : Passed next (t :: (later ++ [t])) := by
    have hwhole : t :: (later ++ t :: earlier) = (t :: (later ++ [t])) ++ earlier := by simp
    rw [hwhole] at h
    exact (List.isChain_append.mp h).1
  have hloop : Loops next t := by
    cases later with
    | nil => exact TransGen.single (List.isChain_cons_cons.mp hpart).1
    | cons a later =>
      obtain ⟨hstep, hrest⟩ := List.isChain_cons_cons.mp hpart
      exact TransGen.tail' (Passed.reach hrest t (by simp)) hstep
  have hpassed : Passed next (t :: earlier) := (List.isChain_append.mp h.tail).2.1
  have hfree : ∀ s ∈ earlier, ¬ Loops next s := by
    intro s hs hcycle
    have hreach := hpassed.reach s (List.mem_cons_of_mem _ hs)
    have hclosed := h.closed (hcycle.back hreach)
    obtain ⟨-, hbelow, hapart⟩ := List.nodup_append.mp hnodup
    rcases List.mem_cons.mp hclosed with rfl | hlater
    · exact (List.nodup_cons.mp hbelow).1 hs
    · exact hapart s hlater s (List.mem_cons_of_mem _ hs) rfl
  exact enters_of_passed hpassed (EntersAt.here hloop) hfree

end

section

variable {α : Type*} [DecidableEq α] {next : α → Option α} {sources seen : List α} {p t : α}

/-- The walk stops where the chain of its first name runs into a loop. -/
theorem walk_enters_of (hpassed : Passed next (p :: seen)) (hnodup : seen.Nodup)
    (hsub : seen ⊆ sources) (hsources : ∀ p, next p ≠ none → p ∈ sources) {fuel : Nat}
    (hfuel : sources.length < fuel + seen.length) (h : walk next fuel seen p = (t, true)) :
    ∀ s ∈ (p :: seen).getLast?, EntersAt next s t := by
  induction fuel generalizing seen p with
  | zero =>
    have hlength := (List.subperm_of_subset hnodup hsub).length_le
    omega
  | succ fuel ih =>
    unfold walk at h
    cases hnext : next p with
    | none =>
      rw [hnext] at h
      cases h
    | some q =>
      rw [hnext] at h
      dsimp only at h
      split at h
      · rename_i hagain
        obtain rfl := congrArg Prod.fst h
        obtain ⟨later, earlier, rfl⟩ := List.append_of_mem hagain
        intro s hs
        apply hpassed.enters hnodup
        have hlast : (p :: (later ++ p :: earlier)).getLast? = (p :: earlier).getLast? :=
          List.getLast?_append_of_ne_nil (p :: later) (List.cons_ne_nil p earlier)
        rw [hlast] at hs
        exact List.mem_of_getLast? hs
      · rename_i hnew
        have hlast := ih (List.isChain_cons_cons.mpr ⟨hnext, hpassed⟩)
          (List.nodup_cons.mpr ⟨hnew, hnodup⟩)
          (List.cons_subset.mpr ⟨hsources p (by rw [hnext]; exact Option.some_ne_none q), hsub⟩)
          (by rw [List.length_cons]; omega) h
        simpa using hlast

theorem walk_enters (hsources : ∀ p, next p ≠ none → p ∈ sources)
    (h : walk next (sources.length + 1) [] p = (t, true)) : EntersAt next p t :=
  walk_enters_of (List.isChain_singleton p) List.nodup_nil (List.nil_subset _) hsources
    (Nat.lt_succ_self _) h p rfl

/-- The walk stops at the end of the chain, or where it runs into a loop. -/
theorem walk_cases (hsources : ∀ p, next p ≠ none → p ∈ sources) (p : α) :
    EndsAt next p (walk next (sources.length + 1) [] p).1 ∨
      EntersAt next p (walk next (sources.length + 1) [] p).1 := by
  rcases hwalk : walk next (sources.length + 1) [] p with ⟨t, stopped⟩
  cases stopped with
  | false => exact Or.inl (walk_ends hwalk)
  | true => exact Or.inr (walk_enters hsources hwalk)

end

end Delegatus.AliasChains
