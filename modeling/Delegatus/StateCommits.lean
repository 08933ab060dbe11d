import Delegatus.ChangeLogs
import Delegatus.StateCollections

/-!
# Every commit logs what it changes

What the statements of a transaction do to a collection, one statement at a time
(`Wrote`), and from it what each writer commits: the new version follows the old one
(`ChangeLogs.Follows`), and the collection stays `Sound`.

Part of `Sound` is `Placed`: of the rows a collection may rewrite no two have one row
order.  A replacement numbers its rows from 0 beside the protected rows it must leave, so a
protected row can share its order with another one.
-/

namespace Delegatus.StateStore

open ChangeLogs (Version Follows Bounded Differs)
open Refusals (bind_eq_ok map_eq_ok run_cons_ok run_invariant all_eq_ok)

variable {κ τ : Type}

/-! ### Rows and their orders -/

theorem recordOf_of_readable {options : Options κ τ} {row : Row κ}
    (h : readable options row = .ok ()) :
    decodeRow options row.valueJson = .ok (recordOf options row) := by
  obtain ⟨value, hvalue, -⟩ := map_eq_ok.mp h
  rw [recordOf, hvalue]

theorem lt_nextOrder {c : Collection κ} {row : Row κ} (h : row ∈ c.rows.rows) :
    row.rowOrder < nextOrder c := by
  have hmem : row.rowOrder ∈ c.rows.rows.map Row.rowOrder := List.mem_map_of_mem h
  unfold nextOrder
  cases hmax : (c.rows.rows.map Row.rowOrder).max? with
  | none =>
    rw [List.max?_eq_none_iff] at hmax
    rw [hmax] at hmem
    cases hmem
  | some last =>
    have hle := List.le_max?_getD_of_mem (k := 0) hmem
    rw [hmax, Option.getD_some] at hle
    exact Nat.lt_succ_of_le hle

theorem nextOrder_le {c : Collection κ} {bound : Nat}
    (h : ∀ row ∈ c.rows.rows, row.rowOrder < bound) : nextOrder c ≤ bound := by
  unfold nextOrder
  cases hmax : (c.rows.rows.map Row.rowOrder).max? with
  | none => exact Nat.zero_le bound
  | some last =>
    obtain ⟨row, hrow, rfl⟩ := List.mem_map.mp (List.max?_mem hmax)
    exact h row hrow

variable [LinearOrder κ]

/-! ### Versions -/

/-- The change log has an entry for the key under the revision. -/
def Logged (c : Collection κ) (revision : Nat) (key : κ) : Prop :=
  ∃ change ∈ c.changes, change.revision = revision ∧ change.rowKey = key

/-- A collection as one version of a revisioned table. -/
def Collection.version (c : Collection κ) : Version κ (Row κ) where
  revision := c.revision
  floor := c.changeFloor
  contents := c.rows.get?
  logged := Logged c

/-- Of the rows that are not protected no two have one order. -/
def Placed (options : Options κ τ) (c : Collection κ) : Prop :=
  ∀ a ∈ c.rows.rows, ∀ b ∈ c.rows.rows, protectedRow options a = false →
    protectedRow options b = false → a.rowOrder = b.rowOrder → a = b

/-- What holds of a collection between two transactions. -/
structure Sound (options : Options κ τ) (c : Collection κ) : Prop where
  bounded : Bounded c.version
  stamped : ∀ row ∈ c.rows.rows, row.rowRevision ≤ c.revision
  placed : Placed options c

/-- What a writer of a sound collection commits. -/
structure Commits (options : Options κ τ) (c c' : Collection κ) : Prop where
  follows : Follows Row.rowRevision c.version c'.version
  sound : Sound options c'

theorem Commits.refl {options : Options κ τ} {c : Collection κ} (h : Sound options c) :
    Commits options c c :=
  ⟨Follows.refl _, h⟩

/-! ### Checks -/

/-- A writable key holds no protected row. -/
theorem assertRowWritable_ok {options : Options κ τ} {c : Collection κ} {key : κ}
    (h : assertRowWritable options c key = .ok ()) {row : Row κ}
    (hrow : c.rows.get? key = some row) : protectedRow options row = false := by
  unfold assertRowWritable at h
  split_ifs at h with hpreserve
  · rw [protectedRow]
    simp only [Bool.not_eq_true'] at hpreserve
    rw [hpreserve, Bool.false_and]
  · rw [hrow] at h
    obtain ⟨-, -, h⟩ := bind_eq_ok.mp h
    split_ifs at h with hprotected
    exact Bool.not_eq_true _ ▸ hprotected

/-! ### Orders after a statement -/

/-- The row takes the order of the unprotected row it replaces, or goes after every row. -/
def Fits (options : Options κ τ) (c : Collection κ) (row : Row κ) : Prop :=
  nextOrder c ≤ row.rowOrder ∨
    ∃ held, c.rows.get? row.rowKey = some held ∧ protectedRow options held = false ∧
      held.rowOrder = row.rowOrder

theorem Fits.unique {options : Options κ τ} {c : Collection κ} {row other : Row κ}
    (hfits : Fits options c row) (hplaced : Placed options c) (hother : other ∈ c.rows.rows)
    (hunprotected : protectedRow options other = false) (horder : other.rowOrder = row.rowOrder) :
    other.rowKey = row.rowKey := by
  rcases hfits with hnext | ⟨held, hheld, hfree, hsame⟩
  · have hlt := lt_nextOrder hother
    omega
  · obtain ⟨hmem, hkey⟩ := Table.get?_eq_some.mp hheld
    have heq := hplaced other hother held hmem hunprotected hfree (horder.trans hsame.symm)
    rw [heq, hkey]

theorem placed_upsertRow {options : Options κ τ} {c : Collection κ} {row : Row κ}
    (hplaced : Placed options c) (hfits : Fits options c row) :
    Placed options (upsertRow c row) := by
  intro a ha b hb hafree hbfree horder
  rcases Table.mem_set.mp ha with rfl | ⟨haold, hakey⟩
  · rcases Table.mem_set.mp hb with rfl | ⟨hbold, hbkey⟩
    · rfl
    · exact absurd (hfits.unique hplaced hbold hbfree horder.symm) hbkey
  · rcases Table.mem_set.mp hb with rfl | ⟨hbold, hbkey⟩
    · exact absurd (hfits.unique hplaced haold hafree horder) hakey
    · exact hplaced a haold b hbold hafree hbfree horder

theorem placed_deleteRow {options : Options κ τ} {c : Collection κ} (key : κ)
    (hplaced : Placed options c) : Placed options (deleteRow c key) := by
  intro a ha b hb
  exact hplaced a (Table.mem_delete.mp ha).1 b (Table.mem_delete.mp hb).1

/-- A held row that keeps its order is the row that sets every column. -/
theorem upsertKeepingOrder_eq {c : Collection κ} {row : Row κ}
    (h : ∀ held, c.rows.get? row.rowKey = some held → held.rowOrder = row.rowOrder) :
    upsertKeepingOrder c row = upsertRow c row := by
  unfold upsertKeepingOrder
  cases hheld : c.rows.get? row.rowKey with
  | none => rfl
  | some held =>
    have horder := h held hheld
    simp only [horder]

/-! ### The statements of one transaction -/

/-- What the statements of a transaction that writes under `revision` have done so far.  The
keys of `pending` are written and not logged yet. -/
structure Wrote (revision : Nat) (pending : κ → Prop) (c c' : Collection κ) : Prop where
  revision_eq : c'.revision = c.revision
  floor_eq : c'.changeFloor = c.changeFloor
  logged : ∀ key, c.rows.get? key ≠ c'.rows.get? key → pending key ∨ Logged c' revision key
  stamped : ∀ key row, c'.rows.get? key = some row →
    row.rowRevision = revision ∨ c.rows.get? key = some row
  kept : ∀ change ∈ c.changes, change ∈ c'.changes
  only : ∀ change ∈ c'.changes, change ∈ c.changes ∨ change.revision = revision

/-- Nothing is pending. -/
def Settled (_ : κ) : Prop := False

theorem Wrote.refl (revision : Nat) (pending : κ → Prop) (c : Collection κ) :
    Wrote revision pending c c where
  revision_eq := rfl
  floor_eq := rfl
  logged := fun _ hdiffers => absurd rfl hdiffers
  stamped := fun _ _ hrow => Or.inr hrow
  kept := fun _ hchange => hchange
  only := fun _ hchange => Or.inl hchange

theorem Wrote.trans {revision : Nat} {pending : κ → Prop} {first second third : Collection κ}
    (h : Wrote revision pending first second) (h' : Wrote revision pending second third) :
    Wrote revision pending first third where
  revision_eq := h'.revision_eq.trans h.revision_eq
  floor_eq := h'.floor_eq.trans h.floor_eq
  logged := by
    intro key hdiffers
    by_cases hfirst : first.rows.get? key = second.rows.get? key
    · exact h'.logged key (fun hsame => hdiffers (hfirst.trans hsame))
    · rcases h.logged key hfirst with hpending | ⟨change, hmem, hchange⟩
      · exact Or.inl hpending
      · exact Or.inr ⟨change, h'.kept change hmem, hchange⟩
  stamped := by
    intro key row hrow
    rcases h'.stamped key row hrow with hnew | hold
    · exact Or.inl hnew
    · exact h.stamped key row hold
  kept := fun change hchange => h'.kept change (h.kept change hchange)
  only := by
    intro change hchange
    rcases h'.only change hchange with hold | hnew
    · exact h.only change hold
    · exact Or.inr hnew

theorem Wrote.mono {revision : Nat} {pending pending' : κ → Prop} {c c' : Collection κ}
    (h : Wrote revision pending c c') (hle : ∀ key, pending key → pending' key) :
    Wrote revision pending' c c' :=
  { h with logged := fun key hdiffers => (h.logged key hdiffers).imp_left (hle key) }

theorem insertChange_ok {c c' : Collection κ} {change : Change κ}
    (h : insertChange c change = .ok c') :
    ¬Logged c change.revision change.rowKey ∧
      c' = { c with changes := c.changes ++ [change] } := by
  unfold insertChange at h
  split_ifs at h with hany
  constructor
  · rintro ⟨held, hmem, hrevision, hkey⟩
    apply hany
    rw [List.any_eq_true]
    exact ⟨held, hmem, by simp [hrevision, hkey]⟩
  · exact (Except.ok.inj h).symm

/-- Rows written at one key, then an entry for the key. -/
theorem wrote_insertChange {revision : Nat} {c mid c' : Collection κ} {change : Change κ}
    (hmid : Wrote revision (fun key => key = change.rowKey) c mid)
    (hrevision : change.revision = revision) (h : insertChange mid change = .ok c') :
    Wrote revision Settled c c' := by
  obtain ⟨-, rfl⟩ := insertChange_ok h
  refine ⟨hmid.revision_eq, hmid.floor_eq, ?_, hmid.stamped, ?_, ?_⟩
  · intro key hdiffers
    right
    rcases hmid.logged key hdiffers with rfl | ⟨held, hmem, hheld⟩
    · exact ⟨change, by simp, hrevision, rfl⟩
    · exact ⟨held, List.mem_append_left _ hmem, hheld⟩
  · intro held hheld
    exact List.mem_append_left _ (hmid.kept held hheld)
  · intro held hheld
    rcases List.mem_append.mp hheld with hold | hnew
    · exact hmid.only held hold
    · rw [List.mem_singleton.mp hnew]
      exact Or.inr hrevision

theorem wrote_upsertRow (c : Collection κ) (row : Row κ) :
    Wrote row.rowRevision (fun key => key = row.rowKey) c (upsertRow c row) where
  revision_eq := rfl
  floor_eq := rfl
  logged := by
    intro key hdiffers
    left
    by_contra hkey
    apply hdiffers
    rw [upsertRow, Table.get?_set, if_neg hkey]
  stamped := by
    intro key held hheld
    rw [upsertRow, Table.get?_set] at hheld
    split_ifs at hheld
    · rw [Option.some.inj hheld]
      exact Or.inl rfl
    · exact Or.inr hheld
  kept := fun _ hchange => hchange
  only := fun _ hchange => Or.inl hchange

theorem wrote_deleteRow (revision : Nat) (c : Collection κ) (key : κ) :
    Wrote revision (fun other => other = key) c (deleteRow c key) where
  revision_eq := rfl
  floor_eq := rfl
  logged := by
    intro other hdiffers
    left
    by_contra hkey
    apply hdiffers
    rw [deleteRow, Table.get?_delete, if_neg hkey]
  stamped := by
    intro other held hheld
    rw [deleteRow, Table.get?_delete] at hheld
    split_ifs at hheld
    exact Or.inr hheld
  kept := fun _ hchange => hchange
  only := fun _ hchange => Or.inl hchange

theorem wrote_logUpsert {c c' : Collection κ} {row : Row κ}
    (h : logUpsert upsertRow c row = .ok c') : Wrote row.rowRevision Settled c c' :=
  wrote_insertChange (wrote_upsertRow c row) rfl h

theorem wrote_logDelete {revision : Nat} {c c' : Collection κ} {key : κ}
    (h : logDelete revision c key = .ok c') : Wrote revision Settled c c' :=
  wrote_insertChange (wrote_deleteRow revision c key) rfl h

theorem wrote_upserts {revision : Nat} {c c' : Collection κ} {rows : List (Row κ)}
    (hrows : ∀ row ∈ rows, row.rowRevision = revision)
    (h : Refusals.run (logUpsert upsertRow) c rows = .ok c') : Wrote revision Settled c c' := by
  apply run_invariant (I := Wrote revision Settled c) ?_ (Wrote.refl _ _ _) h
  intro mid row next hrow hmid hnext
  have hstep := wrote_logUpsert hnext
  rw [hrows row hrow] at hstep
  exact hmid.trans hstep

theorem wrote_deletes {revision : Nat} {c c' : Collection κ} {keys : List κ}
    (h : Refusals.run (logDelete revision) c keys = .ok c') : Wrote revision Settled c c' := by
  apply run_invariant (I := Wrote revision Settled c) ?_ (Wrote.refl _ _ _) h
  intro mid key next _ hmid hnext
  exact hmid.trans (wrote_logDelete hnext)

/-! ### The end of a transaction -/

theorem mem_pruneChanges {c : Collection κ} {revision : Nat} {change : Change κ}
    (h : change ∈ (pruneChanges c revision).changes) : change ∈ c.changes := by
  unfold pruneChanges at h
  simp only at h
  split_ifs at h
  · exact h
  · exact (List.mem_filter.mp h).1

/-- Pruning drops entries up to the floor it leaves, and only those. -/
theorem kept_pruneChanges {c : Collection κ} {revision : Nat} {change : Change κ}
    (h : change ∈ c.changes) (hfloor : (pruneChanges c revision).changeFloor < change.revision) :
    change ∈ (pruneChanges c revision).changes := by
  unfold pruneChanges at hfloor ⊢
  simp only at hfloor ⊢
  split_ifs at hfloor ⊢
  · exact h
  · rw [List.mem_filter, decide_eq_true_eq]
    refine ⟨h, fun hbatch => ?_⟩
    have hexpired := List.mem_of_mem_take hbatch
    rw [List.mem_insertionSort, List.mem_filter, decide_eq_true_eq] at hexpired
    have hmax := lt_of_le_of_lt (le_max_right _ _) hfloor
    omega

theorem floor_pruneChanges (c : Collection κ) (revision : Nat) :
    c.changeFloor ≤ (pruneChanges c revision).changeFloor ∧
      (pruneChanges c revision).changeFloor ≤ max c.changeFloor revision := by
  unfold pruneChanges
  simp only
  split_ifs
  · exact ⟨le_rfl, le_max_left _ _⟩
  · refine ⟨le_max_left _ _, max_le_max le_rfl ?_⟩
    omega

@[simp] theorem rows_pruneChanges (c : Collection κ) (revision : Nat) :
    (pruneChanges c revision).rows = c.rows := by
  unfold pruneChanges
  simp only
  split_ifs <;> rfl

@[simp] theorem revision_pruneChanges (c : Collection κ) (revision : Nat) :
    (pruneChanges c revision).revision = c.revision := by
  unfold pruneChanges
  simp only
  split_ifs <;> rfl

/-- What `finish` leaves of the transaction's collection. -/
structure Finished (revision : Nat) (c out : Collection κ) : Prop where
  revision_eq : out.revision = revision
  rows_eq : out.rows = c.rows
  floor_ge : c.changeFloor ≤ out.changeFloor
  floor_le : out.changeFloor ≤ max c.changeFloor revision
  mem : ∀ change ∈ out.changes, change ∈ c.changes
  kept : ∀ change ∈ c.changes, out.changeFloor < change.revision → change ∈ out.changes

theorem finish_finished (c : Collection κ) (revision : Nat) :
    Finished revision c (finish c revision) := by
  have hfloor := floor_pruneChanges { c with revision := revision } revision
  rw [finish]
  refine ⟨?_, ?_, hfloor.1, hfloor.2, ?_, ?_⟩
  · rw [revision_pruneChanges]
  · rw [rows_pruneChanges]
  · intro change hchange
    exact mem_pruneChanges (c := { c with revision := revision }) hchange
  · intro change hchange hlater
    exact kept_pruneChanges (c := { c with revision := revision }) hchange hlater

/-- **A transaction that logged every key it wrote commits**, whatever the pruning takes. -/
theorem commits_of_finished {options : Options κ τ} {c c' out : Collection κ}
    (hsound : Sound options c) (hwrote : Wrote (c.revision + 1) Settled c c')
    (hplaced : Placed options c') (hout : Finished (c.revision + 1) c' out) :
    Commits options c out := by
  have hnew : out.changeFloor ≤ c.revision + 1 := by
    have hbound : c.changeFloor ≤ c.revision := hsound.bounded.floor_le
    have hle := hout.floor_le
    rw [hwrote.floor_eq] at hle
    exact hle.trans (max_le (hbound.trans (Nat.le_succ _)) le_rfl)
  constructor
  · refine ⟨?_, hwrote.floor_eq.symm.trans_le hout.floor_ge, ?_, ?_, ?_⟩
    · change c.revision ≤ out.revision
      rw [hout.revision_eq]
      exact Nat.le_succ c.revision
    · intro hbelow key hdiffers
      have hchanged : c.rows.get? key ≠ c'.rows.get? key := by
        rw [← hout.rows_eq]
        exact hdiffers
      rcases hwrote.logged key hchanged with hpending | ⟨change, hmem, hchange, hkey⟩
      · exact hpending.elim
      · refine ⟨c.revision + 1, Nat.lt_succ_self _, change, ?_, hchange, hkey⟩
        apply hout.kept change hmem
        rw [hchange]
        exact Nat.lt_succ_of_le hbelow
    · intro key row hrow hstamp
      have hheld : c'.rows.get? key = some row := by
        rw [← hout.rows_eq]
        exact hrow
      rcases hwrote.stamped key row hheld with hstamped | hold
      · rw [hstamped] at hstamp
        exact absurd hstamp (Nat.not_succ_le_self _)
      · exact hold
    · rintro revision key hlater ⟨change, hmem, rfl, hkey⟩
      exact ⟨change, hout.kept change (hwrote.kept change hmem) hlater, rfl, hkey⟩
  · refine ⟨⟨?_, ?_⟩, ?_, ?_⟩
    · change out.changeFloor ≤ out.revision
      rw [hout.revision_eq]
      exact hnew
    · rintro revision key ⟨change, hmem, rfl, -⟩
      change change.revision ≤ out.revision
      rw [hout.revision_eq]
      rcases hwrote.only change (hout.mem change hmem) with hold | hstamped
      · exact (hsound.bounded.logged_le _ _ ⟨change, hold, rfl, rfl⟩).trans (Nat.le_succ _)
      · exact hstamped.le
    · intro row hrow
      rw [hout.rows_eq] at hrow
      rw [hout.revision_eq]
      rcases hwrote.stamped row.rowKey row (Table.get?_eq_some.mpr ⟨hrow, rfl⟩) with hnow | hold
      · exact hnow.le
      · exact (hsound.stamped row (Table.get?_eq_some.mp hold).1).trans (Nat.le_succ _)
    · intro a ha b hb
      rw [hout.rows_eq] at ha hb
      exact hplaced a ha b hb

end Delegatus.StateStore
