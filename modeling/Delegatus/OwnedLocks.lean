import Mathlib.Data.Option.Basic
import Mathlib.Logic.Function.Basic

/-!
# Locks that stand at a name

A lock is a file that its maker creates at a name while none stands there, and then writes its
own name into.  Whoever wants the lock may also remove the file that stands at the name.  A
`Custody` is what such a system looks like from outside: the file at the name, the makers that
hold the lock, those that ever made one, and those that died.

`Guarded` says that the file of each holder stands at the name, so that at most one maker holds
(`Guarded.unique`).  The moves of `Moves` keep it: a file is made, written, or removed when it
is no holder's, and nothing else changes at the name.  `After` is what every move keeps of a
judgment about a file: a file of an earlier maker is never put back.

A `Protocol` is code that makes such locks: each maker is in some phase of it, and a phase says
whether the maker holds the lock, whether it made one, and what it knows of the file at the name.
The rules of `Protocol.Sound` are one for each thing that a turn of a maker does to the name.
-/

namespace Delegatus.OwnedLocks

/-- A lock file: who created it, and whether it names that maker yet. -/
structure OwnedFile (κ : Type*) where
  owner : κ
  written : Bool
deriving DecidableEq

variable {κ : Type*}

/-- The file at the name after `maker` wrote into its own file, which may be another one. -/
def mark [DecidableEq κ] (maker : κ) (here : Option (OwnedFile κ)) : Option (OwnedFile κ) :=
  here.map fun file => if file.owner = maker then { file with written := true } else file

theorem mark_eq_some [DecidableEq κ] {maker : κ} {here : Option (OwnedFile κ)} {file : OwnedFile κ}
    (h : mark maker here = some file) :
    ∃ earlier, here = some earlier ∧ earlier.owner = file.owner ∧
      (earlier.written = true → file.written = true) := by
  obtain ⟨earlier, hearlier, rfl⟩ := Option.map_eq_some_iff.mp h
  refine ⟨earlier, hearlier, ?_⟩
  split <;> simp

theorem mark_owner [DecidableEq κ] (maker : κ) (here : Option (OwnedFile κ)) :
    (mark maker here).map OwnedFile.owner = here.map OwnedFile.owner := by
  cases here with
  | none => exact rfl
  | some file =>
    simp only [mark, Option.map_some]
    split <;> exact rfl

structure Custody (κ : Type*) where
  here : Option (OwnedFile κ)
  holds : κ → Prop
  made : κ → Prop
  dead : κ → Prop

/-- The file of each holder stands at the name, and its maker made it. -/
structure Guarded (v : Custody κ) : Prop where
  held : ∀ maker, v.holds maker → v.here.map OwnedFile.owner = some maker
  made : ∀ file, v.here = some file → v.made file.owner

/-- At most one maker holds the lock. -/
theorem Guarded.unique {v : Custody κ} (h : Guarded v) {a b : κ} (ha : v.holds a) (hb : v.holds b) :
    a = b :=
  Option.some.inj ((h.held a ha).symm.trans (h.held b hb))

/-- The file that a holder finds is its own. -/
theorem Guarded.own {v : Custody κ} (h : Guarded v) {maker : κ} (hholds : v.holds maker)
    {file : OwnedFile κ} (hfile : v.here = some file) : file.owner = maker := by
  have hheld := h.held maker hholds
  rw [hfile] at hheld
  exact Option.some.inj hheld

/-- While nothing stands at the name nobody holds. -/
theorem Guarded.not_holds {v : Custody κ} (h : Guarded v) (hnone : v.here = none) (maker : κ) :
    ¬v.holds maker := by
  intro hholds
  have hheld := h.held maker hholds
  rw [hnone] at hheld
  contradiction

/-- `w` comes after `v`: who made a lock has made one, who died is dead, an earlier maker that
holds held before, and its file stood before, with no more written than now. -/
structure After (v w : Custody κ) : Prop where
  made : ∀ maker, v.made maker → w.made maker
  dead : ∀ maker, v.dead maker → w.dead maker
  holds : ∀ maker, v.made maker → w.holds maker → v.holds maker
  here : ∀ file, w.here = some file → v.made file.owner →
    ∃ earlier, v.here = some earlier ∧ earlier.owner = file.owner ∧
      (earlier.written = true → file.written = true)

/-- How the name may change. -/
inductive Change (v w : Custody κ) : Prop
  | none (hhere : w.here = v.here) (hholds : ∀ maker, w.holds maker → v.holds maker)
  | create (maker : κ) (hfree : v.here = none) (hnew : ¬v.made maker)
      (hhere : w.here = some ⟨maker, false⟩) (hmade : w.made maker)
      (hholds : ∀ other, w.holds other → other = maker ∨ v.holds other)
  | write [DecidableEq κ] (maker : κ) (hhere : w.here = mark maker v.here)
      (hholds : ∀ other, w.holds other → v.holds other)
  /-- The file that is removed belongs to nobody that holds the lock after it. -/
  | remove (hhere : w.here = none) (hholds : ∀ maker, w.holds maker → v.holds maker)
      (hstale : ∀ file, v.here = some file → ¬w.holds file.owner)

structure Moves (v w : Custody κ) : Prop where
  made : ∀ maker, v.made maker → w.made maker
  dead : ∀ maker, v.dead maker → w.dead maker
  change : Change v w

theorem Moves.after {v w : Custody κ} (h : Moves v w) : After v w := by
  refine ⟨h.made, h.dead, ?_, ?_⟩
  · intro maker hmade hmaker
    cases h.change with
    | none _ hholds => exact hholds maker hmaker
    | create new _ hnew _ _ hholds =>
      refine (hholds maker hmaker).resolve_left fun heq => ?_
      exact hnew (heq ▸ hmade)
    | write _ _ hholds => exact hholds maker hmaker
    | remove _ hholds => exact hholds maker hmaker
  intro file hfile hmade
  cases h.change with
  | none hhere => exact ⟨file, hhere ▸ hfile, rfl, id⟩
  | create maker _ hnew hhere =>
    obtain rfl := Option.some.inj (hhere.symm.trans hfile)
    exact absurd hmade hnew
  | write maker hhere => exact mark_eq_some (hhere ▸ hfile)
  | remove hhere =>
    rw [hhere] at hfile
    contradiction

/-- **Every move keeps the lock guarded.** -/
theorem Guarded.moves {v w : Custody κ} (h : Guarded v) (hmoves : Moves v w) : Guarded w := by
  cases hmoves.change with
  | none hhere hholds =>
    refine ⟨fun maker hmaker => hhere ▸ h.held maker (hholds maker hmaker), ?_⟩
    intro file hfile
    exact hmoves.made _ (h.made file (hhere ▸ hfile))
  | create maker hfree hnew hhere hmade hholds =>
    constructor
    · intro other hother
      rcases hholds other hother with rfl | hold
      · rw [hhere]
        exact rfl
      · exact absurd hold (h.not_holds hfree other)
    · intro file hfile
      obtain rfl := Option.some.inj (hhere.symm.trans hfile)
      exact hmade
  | write maker hhere hholds =>
    constructor
    · intro other hother
      rw [hhere, mark_owner]
      exact h.held other (hholds other hother)
    · intro file hfile
      obtain ⟨earlier, hearlier, hsame, -⟩ := mark_eq_some (hhere ▸ hfile)
      exact hmoves.made _ (hsame ▸ h.made earlier hearlier)
  | remove hhere hholds hstale =>
    constructor
    · intro maker hmaker
      obtain ⟨file, hfile, rfl⟩ := Option.map_eq_some_iff.mp (h.held maker (hholds maker hmaker))
      exact absurd hmaker (hstale file hfile)
    · intro file hfile
      rw [hhere] at hfile
      contradiction

/-! ### Makers in phases -/

/-- The file at the name, where each maker is in its code, and who died. -/
structure Makers (κ Φ : Type*) where
  here : Option (OwnedFile κ)
  phase : κ → Φ
  dead : κ → Prop

variable {Φ : Type*}

/-- One maker went to the phase `next` and left `here` at the name. -/
def Makers.turn [DecidableEq κ] (m : Makers κ Φ) (maker : κ) (next : Φ)
    (here : Option (OwnedFile κ)) : Makers κ Φ :=
  { m with phase := Function.update m.phase maker next, here := here }

structure Protocol (κ Φ : Type*) where
  /-- The maker made a lock and has not removed it. -/
  Holding : Φ → Prop
  /-- The maker made its lock. -/
  Created : Φ → Prop
  /-- What a maker in the phase knows of the file that it judges. -/
  Knows : Custody κ → Φ → Prop
  knows_after : ∀ {v w : Custody κ} {phase : Φ}, After v w → Knows v phase → Knows w phase

namespace Protocol

variable (P : Protocol κ Φ)

def custody (m : Makers κ Φ) : Custody κ where
  here := m.here
  holds maker := ¬m.dead maker ∧ P.Holding (m.phase maker)
  made maker := P.Created (m.phase maker)
  dead := m.dead

structure Sound (m : Makers κ Φ) : Prop where
  guarded : Guarded (P.custody m)
  knows : ∀ maker, P.Knows (P.custody m) (m.phase maker)

variable {P}

/-- Before any maker began. -/
theorem sound_of_idle {m : Makers κ Φ} (hhere : m.here = none)
    (hholding : ∀ maker, ¬P.Holding (m.phase maker))
    (hknows : ∀ maker, P.Knows (P.custody m) (m.phase maker)) : P.Sound m := by
  refine ⟨⟨fun maker hholds => absurd hholds.2 (hholding maker), ?_⟩, hknows⟩
  intro file hfile
  exact nomatch hhere.symm.trans hfile

/-- A death takes nothing from the name. -/
theorem Sound.die {m : Makers κ Φ} (h : P.Sound m) {dead : κ → Prop}
    (hdead : ∀ maker, m.dead maker → dead maker) : P.Sound { m with dead := dead } := by
  have hmoves : Moves (P.custody m) (P.custody { m with dead := dead }) := by
    refine ⟨fun _ hmade => hmade, hdead, Change.none rfl ?_⟩
    rintro maker ⟨hlive, hholds⟩
    exact ⟨fun hgone => hlive (hdead maker hgone), hholds⟩
  exact ⟨h.guarded.moves hmoves, fun maker => P.knows_after hmoves.after (h.knows maker)⟩

variable [DecidableEq κ] {m : Makers κ Φ} {maker : κ} {next : Φ} {here : Option (OwnedFile κ)}

/-- Who holds after a turn held before it, unless the turn itself makes its maker hold. -/
theorem holds_turn (himp : P.Holding next → P.Holding (m.phase maker)) {other : κ}
    (h : (P.custody (m.turn maker next here)).holds other) : (P.custody m).holds other := by
  obtain ⟨hlive, hholds⟩ := h
  refine ⟨hlive, ?_⟩
  by_cases heq : other = maker
  · subst heq
    simp only [Makers.turn, Function.update_self] at hholds
    exact himp hholds
  · simpa only [Makers.turn, Function.update_of_ne heq] using hholds

theorem moves_turn (hcreated : P.Created (m.phase maker) → P.Created next)
    (hchange : Change (P.custody m) (P.custody (m.turn maker next here))) :
    Moves (P.custody m) (P.custody (m.turn maker next here)) := by
  refine ⟨?_, fun _ hdead => hdead, hchange⟩
  intro other hother
  by_cases heq : other = maker
  · subst heq
    simpa only [custody, Makers.turn, Function.update_self] using hcreated hother
  · simpa only [custody, Makers.turn, Function.update_of_ne heq] using hother

/-- A turn keeps what the others know, and the maker needs what its next phase asks. -/
theorem Sound.turn (h : P.Sound m)
    (hmoves : Moves (P.custody m) (P.custody (m.turn maker next here)))
    (hknows : P.Knows (P.custody (m.turn maker next here)) next) : P.Sound (m.turn maker next here) := by
  refine ⟨h.guarded.moves hmoves, ?_⟩
  intro other
  by_cases heq : other = maker
  · subst heq
    simpa only [Makers.turn, Function.update_self] using hknows
  · have hother := P.knows_after hmoves.after (h.knows other)
    simpa only [Makers.turn, Function.update_of_ne heq] using hother

/-- A turn that leaves the name alone. -/
theorem Sound.wait (h : P.Sound m) (hcreated : P.Created (m.phase maker) → P.Created next)
    (hholding : P.Holding next → P.Holding (m.phase maker)) (hknows : P.Knows (P.custody m) next) :
    P.Sound (m.turn maker next m.here) := by
  have hmoves : Moves (P.custody m) (P.custody (m.turn maker next m.here)) :=
    moves_turn hcreated (Change.none rfl fun _ hother => holds_turn hholding hother)
  exact h.turn hmoves (P.knows_after hmoves.after hknows)

/-- A turn that makes the lock. -/
theorem Sound.create (h : P.Sound m) (hfree : m.here = none) (hnew : ¬P.Created (m.phase maker))
    (hcreated : P.Created next)
    (hknows : P.Knows (P.custody (m.turn maker next (some ⟨maker, false⟩))) next) :
    P.Sound (m.turn maker next (some ⟨maker, false⟩)) := by
  refine h.turn (moves_turn (fun hold => absurd hold hnew) ?_) hknows
  refine Change.create maker hfree hnew rfl ?_ ?_
  · simpa only [custody, Makers.turn, Function.update_self] using hcreated
  · rintro other ⟨hlive, hholds⟩
    by_cases heq : other = maker
    · exact Or.inl heq
    · simp only [Makers.turn, Function.update_of_ne heq] at hholds
      exact Or.inr ⟨hlive, hholds⟩

/-- A turn that writes into the maker's lock. -/
theorem Sound.write (h : P.Sound m) (hcreated : P.Created (m.phase maker) → P.Created next)
    (hholding : P.Holding next → P.Holding (m.phase maker))
    (hknows : P.Knows (P.custody (m.turn maker next (mark maker m.here))) next) :
    P.Sound (m.turn maker next (mark maker m.here)) :=
  h.turn (moves_turn hcreated (Change.write maker rfl fun _ hother => holds_turn hholding hother)) hknows

/-- A turn that removes what stands at the name: the maker's own lock, or the lock of a dead
one. -/
theorem Sound.unlock (h : P.Sound m) (hcreated : P.Created (m.phase maker) → P.Created next)
    (hnext : ¬P.Holding next) (hknows : P.Knows (P.custody m) next)
    (hstale : ∀ file, m.here = some file → file.owner = maker ∨ m.dead file.owner) :
    P.Sound (m.turn maker next none) := by
  have hmoves : Moves (P.custody m) (P.custody (m.turn maker next none)) := by
    refine moves_turn hcreated (Change.remove rfl ?_ ?_)
    · exact fun _ hother => holds_turn (fun hholds => absurd hholds hnext) hother
    · rintro file hfile ⟨hlive, hholds⟩
      rcases hstale file hfile with heq | hdead
      · rw [heq] at hholds
        simp only [Makers.turn, Function.update_self] at hholds
        exact hnext hholds
      · exact hlive hdead
  exact h.turn hmoves (P.knows_after hmoves.after hknows)

end Protocol

end Delegatus.OwnedLocks
