import Mathlib.Data.List.Basic
import Mathlib.Data.Nat.Basic
import Mathlib.Order.Basic

/-!
# Revisioned tables with a pruned change log

A table whose every commit takes the next revision stamps the rows it writes with that
revision and logs their keys under it.  The log is pruned from the old end: `floor` is the
revision up to which entries may be gone.

`Follows stamp old new` is what any run of such commits, prunings included, leaves between
two versions of one table.  It is reflexive and transitive, so what holds of one commit
holds of every run, and a reader that kept the contents of the older version can bring them
up to date from the log alone (`Follows.same_of_unlogged`).

Nothing here names a particular store.
-/

namespace Delegatus.ChangeLogs

variable {κ ρ : Type*}

/-- One version of the table. -/
structure Version (κ ρ : Type*) where
  revision : Nat
  /-- Entries up to this revision may have been pruned. -/
  floor : Nat
  contents : κ → Option ρ
  /-- The log holds an entry for the key under the revision. -/
  logged : Nat → κ → Prop

/-- The key's row or presence is another one in `new` than in `old`. -/
def Differs (old new : Version κ ρ) (key : κ) : Prop := old.contents key ≠ new.contents key

/-- What commits and prunings leave between an older and a newer version. -/
structure Follows (stamp : ρ → Nat) (old new : Version κ ρ) : Prop where
  revision_le : old.revision ≤ new.revision
  floor_le : old.floor ≤ new.floor
  /-- Above the floor every difference is logged under a later revision. -/
  complete : new.floor ≤ old.revision → ∀ key, Differs old new key →
    ∃ revision, old.revision < revision ∧ new.logged revision key
  /-- A row with an old stamp is the old row. -/
  stamped : ∀ key row, new.contents key = some row → stamp row ≤ old.revision →
    old.contents key = some row
  /-- Only entries up to the floor are pruned. -/
  kept : ∀ revision key, new.floor < revision → old.logged revision key → new.logged revision key

variable {stamp : ρ → Nat}

theorem Follows.refl (version : Version κ ρ) : Follows stamp version version where
  revision_le := le_rfl
  floor_le := le_rfl
  complete := fun _ _ hdiffers => absurd rfl hdiffers
  stamped := fun _ _ hrow _ => hrow
  kept := fun _ _ _ hlogged => hlogged

theorem Follows.trans {first second third : Version κ ρ} (h : Follows stamp first second)
    (h' : Follows stamp second third) : Follows stamp first third where
  revision_le := h.revision_le.trans h'.revision_le
  floor_le := h.floor_le.trans h'.floor_le
  complete := by
    intro hfloor key hdiffers
    by_cases hfirst : Differs first second key
    · obtain ⟨revision, hlater, hlogged⟩ := h.complete (h'.floor_le.trans hfloor) key hfirst
      exact ⟨revision, hlater, h'.kept revision key (hfloor.trans_lt hlater) hlogged⟩
    · have hsecond : Differs second third key := fun hsame =>
        hdiffers ((not_not.mp hfirst).trans hsame)
      obtain ⟨revision, hlater, hlogged⟩ :=
        h'.complete (hfloor.trans h.revision_le) key hsecond
      exact ⟨revision, h.revision_le.trans_lt hlater, hlogged⟩
  stamped := by
    intro key row hrow hstamp
    have hsecond := h'.stamped key row hrow (hstamp.trans h.revision_le)
    exact h.stamped key row hsecond hstamp
  kept := by
    intro revision key hfloor hlogged
    exact h'.kept revision key hfloor (h.kept revision key (h'.floor_le.trans_lt hfloor) hlogged)

/-- A key that the log does not name above the reader's revision reads as it did. -/
theorem Follows.same_of_unlogged {old new : Version κ ρ} (h : Follows stamp old new)
    (hfloor : new.floor ≤ old.revision) {key : κ}
    (hunlogged : ∀ revision, old.revision < revision → ¬new.logged revision key) :
    old.contents key = new.contents key := by
  by_contra hdiffers
  obtain ⟨revision, hlater, hlogged⟩ := h.complete hfloor key hdiffers
  exact hunlogged revision hlater hlogged

/-- The log of a version names no revision past its own, nor is pruned past it. -/
structure Bounded (version : Version κ ρ) : Prop where
  floor_le : version.floor ≤ version.revision
  logged_le : ∀ revision key, version.logged revision key → revision ≤ version.revision

/-- Two versions of one revision have one contents. -/
theorem Follows.same_of_revision_eq {old new : Version κ ρ} (h : Follows stamp old new)
    (hbounded : Bounded new) (heq : old.revision = new.revision) :
    old.contents = new.contents := by
  funext key
  apply h.same_of_unlogged (heq ▸ hbounded.floor_le)
  intro revision hlater hlogged
  have hle := hbounded.logged_le revision key hlogged
  omega

end Delegatus.ChangeLogs
