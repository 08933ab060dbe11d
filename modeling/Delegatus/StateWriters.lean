import Delegatus.StateCommits

/-!
# What each writer of the state store commits

`replaceSync`, `patchSync`, the checkpoints of `mutate`, companion writes, bounded patches
and the pages of a move each commit, from a sound collection, a sound one that follows it.

The planned writes number their entries before they run.  The change log's primary key makes
a plan that names a key twice fail, so when a statement of a plan that succeeds runs, its key
holds what it held when the transaction began.
-/

namespace Delegatus.StateStore

open ChangeLogs (Follows)
open Refusals (bind_eq_ok run_cons_ok run_invariant all_eq_ok)

variable {κ τ : Type}

/-! ### Numbered entries -/

/-- The rows of numbered entries, as a plan upserts them. -/
def rowsOf (revision : Nat) (entries : List (Prepared κ × Nat)) : List (Row κ) :=
  entries.map fun entry => entry.1.row revision entry.2

theorem rowRevision_rowsOf {revision : Nat} {entries : List (Prepared κ × Nat)} {row : Row κ}
    (h : row ∈ rowsOf revision entries) : row.rowRevision = revision := by
  obtain ⟨entry, -, rfl⟩ := List.mem_map.mp h
  rfl

variable [LinearOrder κ]

theorem logUpsert_ok (upsert : Collection κ → Row κ → Collection κ) {c c' : Collection κ}
    {row : Row κ} (hchanges : (upsert c row).changes = c.changes)
    (h : logUpsert upsert c row = .ok c') :
    ¬Logged c row.rowRevision row.rowKey ∧ c'.rows = (upsert c row).rows := by
  obtain ⟨hfresh, rfl⟩ := insertChange_ok h
  exact ⟨fun ⟨change, hmem, hchange⟩ => hfresh ⟨change, hchanges ▸ hmem, hchange⟩, rfl⟩

theorem changes_upsertKeepingOrder (c : Collection κ) (row : Row κ) :
    (upsertKeepingOrder c row).changes = c.changes := by
  unfold upsertKeepingOrder
  split <;> rfl

/-- A key that the transaction has not logged holds what it held before. -/
theorem Wrote.held {revision : Nat} {c d : Collection κ} (h : Wrote revision Settled c d) {key : κ}
    (hfresh : ¬Logged d revision key) : d.rows.get? key = c.rows.get? key := by
  by_contra hdiffers
  rcases h.logged key (fun hsame => hdiffers hsame.symm) with hpending | hlogged
  · exact hpending
  · exact hfresh hlogged

/-- An entry taken from the collection's rows. -/
def TakenFrom (c : Collection κ) (entry : Prepared κ) : Prop :=
  entry.held = c.rows.get? entry.key

/-- Entries numbered by the orders their keys hold are written the same way by both kinds of
upsert. -/
theorem run_keepingOrder {revision : Nat} {c d out : Collection κ}
    {entries : List (Prepared κ)} {next : Nat} (htaken : ∀ entry ∈ entries, TakenFrom c entry)
    (hwrote : Wrote revision Settled c d)
    (h : Refusals.run (logUpsert upsertKeepingOrder) d
      (rowsOf revision (numbered Prepared.heldOrder next entries)) = .ok out) :
    Refusals.run (logUpsert upsertRow) d
      (rowsOf revision (numbered Prepared.heldOrder next entries)) = .ok out := by
  induction entries generalizing d next with
  | nil => exact h
  | cons entry rest ih =>
    have hentry := htaken entry List.mem_cons_self
    have hrest := fun other hother => htaken other (List.mem_cons_of_mem _ hother)
    -- one statement: the held row, if any, has the order the entry was given
    have hstep : ∀ order mid,
        (∀ held, entry.held = some held → held.rowOrder = order) →
        logUpsert upsertKeepingOrder d (entry.row revision order) = .ok mid →
        logUpsert upsertRow d (entry.row revision order) = .ok mid := by
      intro order mid horder hmid
      obtain ⟨hfresh, -⟩ := logUpsert_ok upsertKeepingOrder (changes_upsertKeepingOrder _ _) hmid
      have hheld := hwrote.held hfresh
      have heq : upsertKeepingOrder d (entry.row revision order) =
          upsertRow d (entry.row revision order) := by
        apply upsertKeepingOrder_eq
        intro held hget
        exact horder held (hentry.trans (hheld.symm.trans hget))
      unfold logUpsert at hmid ⊢
      rw [← heq]
      exact hmid
    cases hheld : entry.held with
    | none =>
      simp only [numbered, Prepared.heldOrder, hheld, Option.map_none] at h ⊢
      obtain ⟨mid, hmid, hout⟩ := run_cons_ok.mp h
      have hmid' := hstep next mid (by simp [hheld]) hmid
      exact run_cons_ok.mpr ⟨mid, hmid', ih hrest (hwrote.trans (wrote_logUpsert hmid')) hout⟩
    | some held =>
      simp only [numbered, Prepared.heldOrder, hheld, Option.map_some] at h ⊢
      obtain ⟨mid, hmid, hout⟩ := run_cons_ok.mp h
      have hmid' := hstep held.rowOrder mid (by simp [hheld]) hmid
      exact run_cons_ok.mpr ⟨mid, hmid', ih hrest (hwrote.trans (wrote_logUpsert hmid')) hout⟩

/-- Entries that keep an unprotected row's order, or go after every row, leave no two
unprotected rows at one order. -/
theorem placed_numbered {options : Options κ τ} {revision : Nat} {c d out : Collection κ}
    {place : Prepared κ → Option Nat} {entries : List (Prepared κ)} {next : Nat}
    (htaken : ∀ entry ∈ entries, TakenFrom c entry)
    (hfree : ∀ entry ∈ entries, ∀ held, entry.held = some held → protectedRow options held = false)
    (hplace : ∀ entry order, place entry = some order → entry.heldOrder = some order)
    (hwrote : Wrote revision Settled c d) (hplaced : Placed options d) (hnext : nextOrder d ≤ next)
    (h : Refusals.run (logUpsert upsertRow) d (rowsOf revision (numbered place next entries)) =
      .ok out) : Placed options out := by
  induction entries generalizing d next with
  | nil =>
    obtain rfl := Except.ok.inj h
    exact hplaced
  | cons entry rest ih =>
    have hrest := fun other hother => htaken other (List.mem_cons_of_mem _ hother)
    have hrestFree := fun other hother => hfree other (List.mem_cons_of_mem _ hother)
    -- one statement, at an order it fits, leaves room from `next'` on
    have hstep : ∀ order next' mid, (¬Logged d revision entry.key →
          Fits options d (entry.row revision order)) →
        order < next' → next ≤ next' →
        logUpsert upsertRow d (entry.row revision order) = .ok mid →
        Refusals.run (logUpsert upsertRow) mid (rowsOf revision (numbered place next' rest)) =
          .ok out → Placed options out := by
      intro order next' mid hfits horder hle hmid hout
      obtain ⟨hfresh, hrows⟩ := logUpsert_ok upsertRow rfl hmid
      have hset := placed_upsertRow hplaced (hfits hfresh)
      have hmidPlaced : Placed options mid := by
        intro a ha b hb
        rw [hrows] at ha hb
        exact hset a ha b hb
      apply ih hrest hrestFree (hwrote.trans (wrote_logUpsert hmid)) hmidPlaced ?_ hout
      apply nextOrder_le
      intro row hrow
      rw [hrows] at hrow
      rcases Table.mem_set.mp hrow with rfl | ⟨hold, -⟩
      · exact horder
      · have hlt := lt_nextOrder hold
        omega
    cases horder : place entry with
    | none =>
      simp only [numbered, horder] at h
      obtain ⟨mid, hmid, hout⟩ := run_cons_ok.mp h
      exact hstep next (next + 1) mid (fun _ => Or.inl hnext) (Nat.lt_succ_self _)
        (Nat.le_succ _) hmid hout
    | some order =>
      simp only [numbered, horder] at h
      obtain ⟨mid, hmid, hout⟩ := run_cons_ok.mp h
      obtain ⟨held, hheld, rfl⟩ := Option.map_eq_some_iff.mp (hplace entry order horder)
      have hc : c.rows.get? entry.key = some held :=
        (htaken entry List.mem_cons_self).symm.trans hheld
      have hfits : ¬Logged d revision entry.key →
          Fits options d (entry.row revision held.rowOrder) := fun hfresh =>
        Or.inr ⟨held, (hwrote.held hfresh).trans hc, hfree entry List.mem_cons_self held hheld, rfl⟩
      obtain ⟨hfresh, -⟩ := logUpsert_ok upsertRow rfl hmid
      have hlt := lt_nextOrder (Table.get?_eq_some.mp ((hwrote.held hfresh).trans hc)).1
      exact hstep held.rowOrder next mid hfits (by omega) le_rfl hmid hout

theorem placed_deletes {options : Options κ τ} {revision : Nat} {c out : Collection κ}
    {keys : List κ} (hplaced : Placed options c)
    (h : Refusals.run (logDelete revision) c keys = .ok out) : Placed options out := by
  apply run_invariant (I := Placed options) ?_ hplaced h
  intro mid key next _ hmid hnext
  obtain ⟨-, rfl⟩ := insertChange_ok hnext
  exact placed_deleteRow key hmid

/-! ### Planned writes -/

theorem writePlan_ok {upsert : Collection κ → Row κ → Collection κ} {c out : Collection κ}
    {plan : Plan κ} {revision : Nat} (h : writePlan upsert c plan revision = .ok out) :
    ∃ mid c', Refusals.run (logUpsert upsert) c plan.upserts = .ok mid ∧
      Refusals.run (logDelete revision) mid plan.deletes = .ok c' ∧ out = finish c' revision := by
  unfold writePlan at h
  obtain ⟨mid, hmid, h⟩ := bind_eq_ok.mp h
  obtain ⟨c', hc', h⟩ := bind_eq_ok.mp h
  obtain rfl := Except.ok.inj h
  exact ⟨mid, c', hmid, hc', rfl⟩

theorem commits_of_plan {options : Options κ τ} {c mid c' : Collection κ} {plan : Plan κ}
    (hsound : Sound options c) (hrows : ∀ row ∈ plan.upserts, row.rowRevision = c.revision + 1)
    (hmid : Refusals.run (logUpsert upsertRow) c plan.upserts = .ok mid)
    (hc' : Refusals.run (logDelete (c.revision + 1)) mid plan.deletes = .ok c')
    (hplaced : Placed options c') : Commits options c (finish c' (c.revision + 1)) :=
  commits_of_finished hsound ((wrote_upserts hrows hmid).trans (wrote_deletes hc')) hplaced
    (finish_finished c' _)

/-- A plan of entries at the orders their keys hold, and of deletions. -/
theorem commits_numbered {options : Options κ τ} {c out : Collection κ}
    {entries : List (Prepared κ)} {deletes : List κ} (hsound : Sound options c)
    (htaken : ∀ entry ∈ entries, TakenFrom c entry)
    (hfree : ∀ entry ∈ entries, ∀ held, entry.held = some held → protectedRow options held = false)
    (h : writePlan upsertKeepingOrder c
      ⟨rowsOf (c.revision + 1) (numbered Prepared.heldOrder (nextOrder c) entries), deletes⟩
      (c.revision + 1) = .ok out) : Commits options c out := by
  obtain ⟨mid, c', hmid, hc', hout⟩ := writePlan_ok h
  have hmid' := run_keepingOrder htaken (Wrote.refl _ _ _) hmid
  rw [hout]
  refine commits_of_plan hsound ?_ hmid' hc' ?_
  · intro row hrow
    exact rowRevision_rowsOf hrow
  · apply placed_deletes ?_ hc'
    exact placed_numbered htaken hfree (fun _ _ hplace => hplace) (Wrote.refl _ _ _) hsound.placed
      le_rfl hmid'

theorem prepare_taken (options : Options κ τ) (c : Collection κ) (record : τ) :
    TakenFrom c (prepare options c record) := rfl

/-- The entries of records whose keys are writable hold no protected row. -/
theorem prepared_free {options : Options κ τ} {c : Collection κ} {records : List τ}
    (hwritable : ∀ record ∈ records, assertRowWritable options c (options.key record) = .ok ())
    {entry : Prepared κ} (hentry : entry ∈ records.map (prepare options c)) {held : Row κ}
    (hheld : entry.held = some held) : protectedRow options held = false := by
  obtain ⟨record, hrecord, rfl⟩ := List.mem_map.mp hentry
  exact assertRowWritable_ok (hwritable record hrecord) hheld

theorem prepared_taken {options : Options κ τ} {c : Collection κ} {records : List τ}
    {entry : Prepared κ} (hentry : entry ∈ records.map (prepare options c)) :
    TakenFrom c entry := by
  obtain ⟨record, -, rfl⟩ := List.mem_map.mp hentry
  exact prepare_taken options c record

variable [EmptyCollection κ]

theorem persistChangedRows_commits {options : Options κ τ} {records : List τ} {c c' : Collection κ}
    (hsound : Sound options c) (h : persistChangedRows options records c = .ok c') :
    Commits options c c' := by
  unfold persistChangedRows at h
  obtain ⟨_, -, h⟩ := bind_eq_ok.mp h
  obtain ⟨_, hwritable, h⟩ := bind_eq_ok.mp h
  simp only at h
  split_ifs at h
  · obtain rfl := Except.ok.inj h
    exact Commits.refl hsound
  · refine commits_numbered hsound ?_ ?_ h
    · intro entry hentry
      exact prepared_taken (List.mem_filter.mp hentry).1
    · intro entry hentry held
      exact prepared_free (all_eq_ok.mp hwritable) (List.mem_filter.mp hentry).1

omit [LinearOrder κ] [EmptyCollection κ] in
/-- Numbering changes no entry. -/
theorem mem_numbered {place : Prepared κ → Option Nat} {next : Nat} {entries : List (Prepared κ)}
    {entry : Prepared κ × Nat} (h : entry ∈ numbered place next entries) : entry.1 ∈ entries := by
  induction entries generalizing next with
  | nil => simp [numbered] at h
  | cons first rest ih =>
    rw [numbered] at h
    split at h
    all_goals
      rcases List.mem_cons.mp h with rfl | hrest
      · exact List.mem_cons_self
      · exact List.mem_cons_of_mem _ (ih hrest)

omit [EmptyCollection κ] in
theorem get?_upsertKeepingOrder (c : Collection κ) {row : Row κ} {key : κ}
    (hkey : row.rowKey ≠ key) : (upsertKeepingOrder c row).rows.get? key = c.rows.get? key := by
  unfold upsertKeepingOrder
  split
  all_goals
    rw [upsertRow, Table.get?_set]
    exact if_neg (Ne.symm hkey)

/-- A checkpoint leaves the rows of every key that it does not name. -/
theorem persistChangedRows_frame {options : Options κ τ} {records : List τ} {c c' : Collection κ}
    (h : persistChangedRows options records c = .ok c') {key : κ}
    (hkey : key ∉ records.map options.key) : c'.rows.get? key = c.rows.get? key := by
  unfold persistChangedRows at h
  obtain ⟨_, -, h⟩ := bind_eq_ok.mp h
  obtain ⟨_, -, h⟩ := bind_eq_ok.mp h
  simp only at h
  split_ifs at h
  · rw [Except.ok.inj h]
  · obtain ⟨mid, written, hmid, hwritten, hout⟩ := writePlan_ok h
    have hupserts : mid.rows.get? key = c.rows.get? key := by
      refine run_invariant (I := fun mid => mid.rows.get? key = c.rows.get? key) ?_ rfl hmid
      intro before row next hrow hbefore hnext
      obtain ⟨entry, hentry, rfl⟩ := List.mem_map.mp hrow
      have hprepared := (List.mem_filter.mp (mem_numbered hentry)).1
      obtain ⟨record, hrecord, hof⟩ := List.mem_map.mp hprepared
      have hne : (entry.1.row (c.revision + 1) entry.2).rowKey ≠ key := by
        rintro rfl
        apply hkey
        rw [Prepared.row, ← hof]
        exact List.mem_map_of_mem hrecord
      obtain ⟨-, hrows⟩ := logUpsert_ok _ (changes_upsertKeepingOrder before _) hnext
      rw [hrows, get?_upsertKeepingOrder before hne, hbefore]
    have hdeletes : written = mid := (Except.ok.inj hwritten).symm
    rw [hout, finish, rows_pruneChanges, ← hupserts, hdeletes]

theorem mergeRows_commits {options : Options κ τ} {records : List τ} {deleteKeys : List κ}
    {c c' : Collection κ} (hsound : Sound options c)
    (h : mergeRows options records deleteKeys c = .ok c') : Commits options c c' := by
  unfold mergeRows at h
  obtain ⟨_, -, h⟩ := bind_eq_ok.mp h
  obtain ⟨_, hwritable, h⟩ := bind_eq_ok.mp h
  obtain ⟨_, -, h⟩ := bind_eq_ok.mp h
  simp only at h
  split_ifs at h
  · obtain rfl := Except.ok.inj h
    exact Commits.refl hsound
  · refine commits_numbered hsound ?_ ?_ h
    · intro entry hentry
      exact prepared_taken (List.mem_filter.mp hentry).1
    · intro entry hentry held
      exact prepared_free (all_eq_ok.mp hwritable) (List.mem_filter.mp hentry).1

/-! ### Replacements -/

omit [EmptyCollection κ] in
/-- A row that upserts leave is one of theirs, or an old one at a key they do not write. -/
theorem mem_upserts {c out : Collection κ} {rows : List (Row κ)}
    (h : Refusals.run (logUpsert upsertRow) c rows = .ok out) {row : Row κ}
    (hrow : row ∈ out.rows.rows) :
    row ∈ rows ∨ (row ∈ c.rows.rows ∧ row.rowKey ∉ rows.map Row.rowKey) := by
  induction rows generalizing c with
  | nil =>
    obtain rfl := Except.ok.inj h
    exact Or.inr ⟨hrow, by simp⟩
  | cons first rest ih =>
    obtain ⟨mid, hmid, hout⟩ := run_cons_ok.mp h
    obtain ⟨-, hrows⟩ := logUpsert_ok upsertRow rfl hmid
    rcases ih hout with hrest | ⟨hold, hkey⟩
    · exact Or.inl (List.mem_cons_of_mem _ hrest)
    · rw [hrows] at hold
      rcases Table.mem_set.mp hold with rfl | ⟨hold, hne⟩
      · exact Or.inl List.mem_cons_self
      · exact Or.inr ⟨hold, by simpa using ⟨hne, by simpa using hkey⟩⟩

omit [EmptyCollection κ] in
/-- A row that deletions leave is an old one at a key they do not name. -/
theorem mem_deletes {revision : Nat} {c out : Collection κ} {keys : List κ}
    (h : Refusals.run (logDelete revision) c keys = .ok out) {row : Row κ}
    (hrow : row ∈ out.rows.rows) : row ∈ c.rows.rows ∧ row.rowKey ∉ keys := by
  induction keys generalizing c with
  | nil =>
    obtain rfl := Except.ok.inj h
    exact ⟨hrow, by simp⟩
  | cons first rest ih =>
    obtain ⟨mid, hmid, hout⟩ := run_cons_ok.mp h
    obtain ⟨-, rfl⟩ := insertChange_ok hmid
    obtain ⟨hold, hkey⟩ := ih hout
    obtain ⟨hold, hne⟩ := Table.mem_delete.mp hold
    exact ⟨hold, by simpa using ⟨hne, hkey⟩⟩

omit [EmptyCollection κ] in
/-- An unprotected row that a replacement leaves is a record's, at the record's index. -/
theorem replaced_at_index {options : Options κ τ} {records : List τ} {c mid out : Collection κ}
    (hmid : Refusals.run (logUpsert upsertRow) c (replacePlan options records c).upserts = .ok mid)
    (hout : Refusals.run (logDelete (c.revision + 1)) mid (replacePlan options records c).deletes =
      .ok out) {row : Row κ} (hrow : row ∈ out.rows.rows)
    (hfree : protectedRow options row = false) :
    (records.map options.key)[row.rowOrder]? = some row.rowKey := by
  have hindex : ∀ entry : Prepared κ × Nat, entry ∈ (records.map (prepare options c)).zipIdx →
      (records.map options.key)[entry.2]? = some entry.1.key := by
    intro entry hentry
    have hat := List.mk_mem_zipIdx_iff_getElem?.mp hentry
    rw [List.getElem?_map] at hat ⊢
    obtain ⟨record, hrecord, hprepared⟩ := Option.map_eq_some_iff.mp hat
    rw [hrecord, ← hprepared]
    rfl
  obtain ⟨hleft, hkept⟩ := mem_deletes hout hrow
  rcases mem_upserts hmid hleft with hnew | ⟨hold, hunwritten⟩
  · obtain ⟨entry, hentry, rfl⟩ := List.mem_map.mp hnew
    exact hindex entry (List.mem_filter.mp hentry).1
  · -- an old row is neither deleted nor written: its record is held as it is, index included
    have hseen : row.rowKey ∈ records.map options.key := by
      by_contra hunseen
      apply hkept
      rw [replacePlan]
      refine List.mem_map.mpr ⟨row, List.mem_filter.mpr ⟨hold, ?_⟩, rfl⟩
      simp only [Bool.and_eq_true, Bool.not_eq_true', hfree, and_true]
      simpa using hunseen
    obtain ⟨record, hrecord, hkey⟩ := List.mem_map.mp hseen
    obtain ⟨index, hat⟩ := List.getElem?_of_mem hrecord
    have hentry : (prepare options c record, index) ∈
        (records.map (prepare options c)).zipIdx := by
      rw [List.mk_mem_zipIdx_iff_getElem?, List.getElem?_map, hat]
      rfl
    have hheld : (prepare options c record).held = some row :=
      Table.get?_eq_some.mpr ⟨hold, hkey.symm⟩
    have horder : row.rowOrder = index := by
      by_contra hne
      apply hunwritten
      rw [replacePlan]
      refine List.mem_map.mpr ⟨_, List.mem_map.mpr ⟨_, List.mem_filter.mpr ⟨hentry, ?_⟩, rfl⟩, hkey⟩
      simp [Prepared.heldOrder, hheld, hne]
    rw [horder, ← hkey]
    exact hindex _ hentry

omit [EmptyCollection κ] in
theorem placed_replacePlan {options : Options κ τ} {records : List τ} {c mid out : Collection κ}
    (hmid : Refusals.run (logUpsert upsertRow) c (replacePlan options records c).upserts = .ok mid)
    (hout : Refusals.run (logDelete (c.revision + 1)) mid (replacePlan options records c).deletes =
      .ok out) : Placed options out := by
  intro a ha b hb hafree hbfree horder
  have hakey := replaced_at_index hmid hout ha hafree
  have hbkey := replaced_at_index hmid hout hb hbfree
  rw [horder, hbkey] at hakey
  exact out.rows.eq_of_key_eq ha hb (Option.some.inj hakey).symm

omit [EmptyCollection κ] in
theorem commits_mergePlan {options : Options κ τ} {records : List τ} {deleteKeys appendKeys : List κ}
    {c out : Collection κ} (hsound : Sound options c)
    (hwritable : ∀ record ∈ records, assertRowWritable options c (options.key record) = .ok ())
    (h : writePlan upsertRow c (mergePlan options records deleteKeys appendKeys c)
      (c.revision + 1) = .ok out) : Commits options c out := by
  obtain ⟨mid, c', hmid, hc', hout⟩ := writePlan_ok h
  rw [hout]
  refine commits_of_plan hsound ?_ hmid hc' ?_
  · intro row hrow
    exact rowRevision_rowsOf hrow
  · apply placed_deletes ?_ hc'
    refine placed_numbered ?_ ?_ ?_ (Wrote.refl _ _ _) hsound.placed le_rfl hmid
    · intro entry hentry
      exact prepared_taken (List.mem_filter.mp hentry).1
    · intro entry hentry held
      exact prepared_free hwritable (List.mem_filter.mp hentry).1
    · intro entry order hplace
      split_ifs at hplace
      exact hplace

omit [EmptyCollection κ] in
theorem commits_replacePlan {options : Options κ τ} {records : List τ} {c out : Collection κ}
    (hsound : Sound options c)
    (h : writePlan upsertRow c (replacePlan options records c) (c.revision + 1) = .ok out) :
    Commits options c out := by
  obtain ⟨mid, c', hmid, hc', hout⟩ := writePlan_ok h
  rw [hout]
  refine commits_of_plan hsound ?_ hmid hc' (placed_replacePlan hmid hc')
  intro row hrow
  exact rowRevision_rowsOf hrow

theorem persistReplacement_commits {options : Options κ τ} {records : List τ} {mergeOmitted : Bool}
    {deleteKeys appendKeys : List κ} {c c' : Collection κ} (hsound : Sound options c)
    (h : persistReplacement options records mergeOmitted deleteKeys appendKeys c = .ok c') :
    Commits options c c' := by
  unfold persistReplacement at h
  obtain ⟨_, -, h⟩ := bind_eq_ok.mp h
  simp only at h
  split at h
  · nomatch h
  split at h
  · nomatch h
  obtain ⟨_, hwritable, h⟩ := bind_eq_ok.mp h
  obtain ⟨_, -, h⟩ := bind_eq_ok.mp h
  have hrecords : ∀ record ∈ records, assertRowWritable options c (options.key record) = .ok () := by
    intro record hrecord
    apply all_eq_ok.mp hwritable
    exact List.mem_append_left _ (List.mem_map_of_mem hrecord)
  cases mergeOmitted with
  | true =>
    simp only [if_true] at h
    split_ifs at h
    · obtain rfl := Except.ok.inj h
      exact Commits.refl hsound
    · exact commits_mergePlan hsound hrecords h
  | false =>
    simp only [Bool.false_eq_true, if_false] at h
    split_ifs at h
    · obtain rfl := Except.ok.inj h
      exact Commits.refl hsound
    · exact commits_replacePlan hsound h

/-! ### Bounded patches -/

/-- The transaction of a bounded patch: only keys of `changed` are written, and none is
logged yet. -/
structure Patched (options : Options κ τ) (c : Collection κ) (tx : BoundedTransaction κ) : Prop where
  wrote : Wrote (c.revision + 1) (fun key => tx.changed.has key = true) c tx.collection
  changes_eq : tx.collection.changes = c.changes
  placed : Placed options tx.collection

omit [EmptyCollection κ] [LinearOrder κ] in
theorem consume_ok {tx tx' : BoundedTransaction κ} {cost : Nat} (h : consume tx cost = .ok tx') :
    tx'.collection = tx.collection ∧ tx'.changed = tx.changed := by
  unfold consume at h
  split_ifs at h
  obtain rfl := Except.ok.inj h
  exact ⟨rfl, rfl⟩

omit [EmptyCollection κ] in
theorem Patched.consume {options : Options κ τ} {c : Collection κ} {tx tx' : BoundedTransaction κ}
    {cost : Nat} (h : Patched options c tx) (hconsume : consume tx cost = .ok tx') :
    Patched options c tx' := by
  obtain ⟨hcollection, hchanged⟩ := consume_ok hconsume
  refine ⟨?_, ?_, ?_⟩
  · rw [hcollection, hchanged]
    exact h.wrote
  · rw [hcollection]
    exact h.changes_eq
  · rw [hcollection]
    exact h.placed

omit [EmptyCollection κ] in
/-- One more statement at a key that is now in `changed`. -/
theorem Patched.write {options : Options κ τ} {c d : Collection κ} {tx : BoundedTransaction κ}
    {key : κ} {operation : Operation} (h : Patched options c tx)
    (hwrote : Wrote (c.revision + 1) (fun other => other = key) tx.collection d)
    (hchanges : d.changes = tx.collection.changes) (hplaced : Placed options d) :
    Patched options c
      { tx with collection := d, changed := tx.changed.set (key, operation) } := by
  refine ⟨?_, hchanges.trans h.changes_eq, hplaced⟩
  refine Wrote.trans (?_ : Wrote _ _ c tx.collection) ?_
  · apply h.wrote.mono
    intro other hother
    exact (Table.has_set _ _ _).mpr (Or.inr hother)
  · apply hwrote.mono
    intro other hother
    exact (Table.has_set _ _ _).mpr (Or.inl hother)

theorem Patched.applyOperation {options : Options κ τ} {c : Collection κ}
    {tx tx' : BoundedTransaction κ} {operation : RowOperation κ τ} (h : Patched options c tx)
    (hstep : applyOperation options (c.revision + 1) tx operation = .ok tx') :
    Patched options c tx' := by
  cases operation with
  | lookup cost => exact h.consume hstep
  | put record =>
    unfold StateStore.applyOperation at hstep
    obtain ⟨tx₁, hconsume, hstep⟩ := bind_eq_ok.mp hstep
    obtain ⟨_, -, hstep⟩ := bind_eq_ok.mp hstep
    obtain ⟨_, hwritable, hstep⟩ := bind_eq_ok.mp hstep
    obtain rfl := Except.ok.inj hstep
    have hpatched := h.consume hconsume
    -- a held row keeps its order, a new one goes last
    have hrow : ∃ order, upsertKeepingOrder tx₁.collection
          ((prepare options tx₁.collection record).row (c.revision + 1)
            (nextOrder tx₁.collection)) =
        upsertRow tx₁.collection
          ((prepare options tx₁.collection record).row (c.revision + 1) order) ∧
        Fits options tx₁.collection
          ((prepare options tx₁.collection record).row (c.revision + 1) order) := by
      cases hheld : tx₁.collection.rows.get? (options.key record) with
      | none =>
        refine ⟨nextOrder tx₁.collection, ?_, Or.inl le_rfl⟩
        apply upsertKeepingOrder_eq
        intro held hget
        exact absurd (hheld.symm.trans hget) (by simp)
      | some held =>
        refine ⟨held.rowOrder, ?_, Or.inr ⟨held, hheld, assertRowWritable_ok hwritable hheld, rfl⟩⟩
        unfold upsertKeepingOrder
        have hget : tx₁.collection.rows.get?
            ((prepare options tx₁.collection record).row (c.revision + 1)
              (nextOrder tx₁.collection)).rowKey = some held := hheld
        rw [hget]
        rfl
    obtain ⟨order, heq, hfits⟩ := hrow
    rw [heq]
    have hwrote := wrote_upsertRow tx₁.collection
      ((prepare options tx₁.collection record).row (c.revision + 1) order)
    exact hpatched.write hwrote rfl (placed_upsertRow hpatched.placed hfits)
  | delete key =>
    unfold StateStore.applyOperation at hstep
    obtain ⟨tx₁, hconsume, hstep⟩ := bind_eq_ok.mp hstep
    obtain ⟨_, -, hstep⟩ := bind_eq_ok.mp hstep
    obtain rfl := Except.ok.inj hstep
    have hpatched := h.consume hconsume
    exact hpatched.write (wrote_deleteRow _ _ _) rfl (placed_deleteRow key hpatched.placed)

omit [EmptyCollection κ] in
/-- The entries of `changed`, logged one by one over rows that stay. -/
theorem log_changed {revision : Nat} {c out : Collection κ} {entries : List (κ × Operation)}
    (h : Refusals.run (logChange revision) c entries = .ok out) :
    out.rows = c.rows ∧ out.revision = c.revision ∧ out.changeFloor = c.changeFloor ∧
      (∀ entry ∈ entries, Logged out revision entry.1) ∧
      (∀ change ∈ c.changes, change ∈ out.changes) ∧
      ∀ change ∈ out.changes, change ∈ c.changes ∨ change.revision = revision := by
  induction entries generalizing c with
  | nil =>
    obtain rfl := Except.ok.inj h
    exact ⟨rfl, rfl, rfl, by simp, fun _ hchange => hchange, fun _ hchange => Or.inl hchange⟩
  | cons entry rest ih =>
    obtain ⟨mid, hmid, hout⟩ := run_cons_ok.mp h
    obtain ⟨-, rfl⟩ := insertChange_ok hmid
    obtain ⟨hrows, hrevision, hfloor, hlogged, hkept, honly⟩ := ih hout
    refine ⟨hrows, hrevision, hfloor, ?_, ?_, ?_⟩
    · intro other hother
      rcases List.mem_cons.mp hother with rfl | hrest
      · exact ⟨⟨revision, other.1, other.2⟩, hkept _ (by simp), rfl, rfl⟩
      · exact hlogged other hrest
    · intro change hchange
      exact hkept change (List.mem_append_left _ hchange)
    · intro change hchange
      rcases honly change hchange with hold | hnew
      · rcases List.mem_append.mp hold with hold | hnew
        · exact Or.inl hold
        · exact Or.inr (by rw [List.mem_singleton.mp hnew])
      · exact Or.inr hnew

omit [EmptyCollection κ] in
/-- Once `changed` is logged, nothing is pending. -/
theorem Patched.settled {options : Options κ τ} {c out : Collection κ} {tx : BoundedTransaction κ}
    (h : Patched options c tx)
    (hlog : Refusals.run (logChange (c.revision + 1)) tx.collection tx.changed.rows = .ok out) :
    Wrote (c.revision + 1) Settled c out ∧ Placed options out := by
  obtain ⟨hrows, hrevision, hfloor, hlogged, hkept, honly⟩ := log_changed hlog
  constructor
  · refine ⟨hrevision.trans h.wrote.revision_eq, hfloor.trans h.wrote.floor_eq, ?_, ?_, ?_, ?_⟩
    · intro key hdiffers
      right
      rw [hrows] at hdiffers
      rcases h.wrote.logged key hdiffers with hpending | ⟨change, hmem, hchange⟩
      · obtain ⟨entry, hentry, rfl⟩ := Table.has_eq_true.mp hpending
        exact hlogged entry hentry
      · exact ⟨change, hkept change hmem, hchange⟩
    · intro key row hrow
      rw [hrows] at hrow
      exact h.wrote.stamped key row hrow
    · intro change hchange
      exact hkept change (h.wrote.kept change hchange)
    · intro change hchange
      rcases honly change hchange with hold | hnew
      · exact h.wrote.only change hold
      · exact Or.inr hnew
  · intro a ha b hb
    rw [hrows] at ha hb
    exact h.placed a ha b hb

omit [EmptyCollection κ] in
/-- A transaction with an empty `changed` map wrote nothing. -/
theorem Patched.unchanged {options : Options κ τ} {c : Collection κ} {tx : BoundedTransaction κ}
    (hsound : Sound options c) (h : Patched options c tx) (hempty : tx.changed.rows = []) :
    Commits options c tx.collection := by
  have hsame : ∀ key, c.rows.get? key = tx.collection.rows.get? key := by
    intro key
    by_contra hdiffers
    rcases h.wrote.logged key hdiffers with hpending | ⟨change, hmem, hrevision, -⟩
    · obtain ⟨entry, hentry, -⟩ := Table.has_eq_true.mp hpending
      rw [hempty] at hentry
      cases hentry
    · rw [h.changes_eq] at hmem
      have hle : change.revision ≤ c.revision :=
        hsound.bounded.logged_le _ _ ⟨change, hmem, rfl, rfl⟩
      omega
  have hversion : tx.collection.version = c.version := by
    unfold Collection.version
    rw [h.wrote.revision_eq, h.wrote.floor_eq]
    congr 1
    · exact (funext hsame).symm
    · funext revision key
      unfold Logged
      rw [h.changes_eq]
  have hrow : ∀ row ∈ tx.collection.rows.rows, row ∈ c.rows.rows := by
    intro row hrow
    have hget := Table.get?_eq_some.mpr ⟨hrow, rfl⟩
    exact (Table.get?_eq_some.mp ((hsame row.rowKey).trans hget)).1
  refine ⟨hversion ▸ Follows.refl _, hversion ▸ hsound.bounded, ?_, h.placed⟩
  intro row hmem
  rw [h.wrote.revision_eq]
  exact hsound.stamped row (hrow row hmem)

theorem boundedPatch_commits {options : Options κ τ} {limit : Nat}
    {operations : List (RowOperation κ τ)} {companionRows : Nat} {c c' : Collection κ}
    (hsound : Sound options c)
    (h : boundedPatch options limit operations companionRows c = .ok c') :
    Commits options c c' := by
  unfold boundedPatch at h
  split_ifs at h
  obtain ⟨tx₁, hrun, h⟩ := bind_eq_ok.mp h
  obtain ⟨tx, hconsume, h⟩ := bind_eq_ok.mp h
  have hstart : Patched options c ⟨c, limit, Table.empty⟩ :=
    ⟨Wrote.refl _ _ _, rfl, hsound.placed⟩
  have hrunPatched : Patched options c tx₁ :=
    run_invariant (fun _ _ _ _ hmid hnext => hmid.applyOperation hnext) hstart hrun
  have hpatched := hrunPatched.consume hconsume
  split_ifs at h with hempty
  · obtain rfl := Except.ok.inj h
    exact hpatched.unchanged hsound (List.isEmpty_iff.mp hempty)
  · obtain ⟨logged, hlog, h⟩ := bind_eq_ok.mp h
    obtain ⟨hwrote, hplaced⟩ := hpatched.settled hlog
    have hout := finish_finished logged (c.revision + 1)
    simp only [Except.ok.injEq] at h
    rw [← h]
    exact commits_of_finished hsound hwrote hplaced hout

/-! ### Pages of a move -/

omit [LinearOrder κ] [EmptyCollection κ] in
/-- Only entries whose key holds nothing take a new number, and those are changed. -/
theorem numbered_changed (next : Nat) (entries : List (Prepared κ)) :
    (numbered Prepared.heldOrder next entries).filter (fun entry => entry.1.changed) =
      numbered Prepared.heldOrder next (entries.filter Prepared.changed) := by
  induction entries generalizing next with
  | nil => rfl
  | cons entry rest ih =>
    cases hheld : entry.held with
    | none =>
      have hchanged : entry.changed = true := by simp [Prepared.changed, Prepared.newText, hheld]
      rw [List.filter_cons_of_pos hchanged]
      simp only [numbered, Prepared.heldOrder, hheld, Option.map_none]
      rw [List.filter_cons, if_pos hchanged, ih]
    | some held =>
      by_cases hchanged : entry.changed = true
      · rw [List.filter_cons_of_pos hchanged]
        simp only [numbered, Prepared.heldOrder, hheld, Option.map_some]
        rw [List.filter_cons, if_pos hchanged, ih]
      · rw [List.filter_cons_of_neg hchanged]
        simp only [numbered, Prepared.heldOrder, hheld, Option.map_some]
        rw [List.filter_cons, if_neg hchanged]
        exact ih next

omit [EmptyCollection κ] in
theorem commits_deletes {options : Options κ τ} {c out : Collection κ} {keys : List κ}
    (hsound : Sound options c)
    (h : writePlan upsertRow c ⟨[], keys⟩ (c.revision + 1) = .ok out) : Commits options c out := by
  obtain ⟨mid, c', hmid, hc', hout⟩ := writePlan_ok h
  rw [hout]
  refine commits_of_plan hsound (by simp) hmid hc' ?_
  obtain rfl := Except.ok.inj hmid
  exact placed_deletes hsound.placed hc'

theorem movePage_commits {options targetOptions : Options κ τ} {predicate : τ → Bool}
    {afterOrder : Int} {afterKey : κ} {throughOrder : Int} {source target source' target' : Collection κ}
    (hsource : Sound options source) (htarget : Sound targetOptions target)
    (h : movePage options targetOptions predicate afterOrder afterKey throughOrder source target =
      .ok (source', target')) :
    Commits options source source' ∧ Commits targetOptions target target' := by
  unfold movePage at h
  simp only at h
  obtain ⟨_, -, h⟩ := bind_eq_ok.mp h
  generalize selectRows options predicate (pageRows source afterOrder afterKey throughOrder) =
    selected at h
  split at h
  · obtain ⟨rfl, rfl⟩ := Prod.mk.inj (Except.ok.inj h)
    exact ⟨Commits.refl hsource, Commits.refl htarget⟩
  · obtain ⟨_, -, h⟩ := bind_eq_ok.mp h
    obtain ⟨_, hwritable, h⟩ := bind_eq_ok.mp h
    split at h
    · obtain ⟨moved, hmoved, h⟩ := bind_eq_ok.mp h
      obtain ⟨left, hleft, h⟩ := bind_eq_ok.mp h
      obtain ⟨rfl, rfl⟩ := Prod.mk.inj (Except.ok.inj h)
      obtain rfl := Except.ok.inj hmoved
      exact ⟨commits_deletes hsource hleft, Commits.refl htarget⟩
    · obtain ⟨moved, hmoved, h⟩ := bind_eq_ok.mp h
      obtain ⟨left, hleft, h⟩ := bind_eq_ok.mp h
      obtain ⟨rfl, rfl⟩ := Prod.mk.inj (Except.ok.inj h)
      refine ⟨commits_deletes hsource hleft, ?_⟩
      rw [numbered_changed] at hmoved
      refine commits_numbered htarget ?_ ?_ hmoved
      · intro entry hentry
        exact prepared_taken (List.mem_filter.mp hentry).1
      · intro entry hentry held
        exact prepared_free (all_eq_ok.mp hwritable) (List.mem_filter.mp hentry).1

/-! ### Seeding -/

/-- A seeded collection is sound. -/
theorem insertSeed_sound {options : Options κ τ} {rows : List (ImportRow κ)} {c : Collection κ}
    (h : insertSeed rows = .ok c) : Sound options c := by
  unfold insertSeed at h
  split at h
  · nomatch h
  · rename_i hkeys
    simp only [not_or, not_not] at hkeys
    obtain rfl := Except.ok.inj h
    have hnodup : ((rows.zipIdx.map fun entry => (⟨entry.1.key, entry.1.valueJson, entry.2,
        if rows.isEmpty then 0 else 1, entry.1.controllerActive⟩ : Row κ)).map Row.rowKey).Nodup := by
      rw [List.map_map]
      have hmap : rows.zipIdx.map (Row.rowKey ∘ fun entry => (⟨entry.1.key, entry.1.valueJson,
          entry.2, if rows.isEmpty then 0 else 1, entry.1.controllerActive⟩ : Row κ)) =
          (rows.zipIdx.map Prod.fst).map ImportRow.key := by
        rw [List.map_map]
        rfl
      rw [hmap, List.zipIdx_map_fst]
      exact hkeys.2
    refine ⟨⟨Nat.zero_le _, ?_⟩, ?_, ?_⟩
    · rintro revision key ⟨change, hchange, -⟩
      cases hchange
    · intro row hrow
      rw [Table.rows_ofList hnodup] at hrow
      obtain ⟨entry, -, rfl⟩ := List.mem_map.mp hrow
      exact le_rfl
    · intro a ha b hb _ _ horder
      rw [Table.rows_ofList hnodup] at ha hb
      obtain ⟨⟨first, i⟩, hfirst, rfl⟩ := List.mem_map.mp ha
      obtain ⟨⟨second, j⟩, hsecond, rfl⟩ := List.mem_map.mp hb
      have hsame : i = j := horder
      subst hsame
      have hfirst' := List.mk_mem_zipIdx_iff_getElem?.mp hfirst
      have hsecond' := List.mk_mem_zipIdx_iff_getElem?.mp hsecond
      obtain rfl := Option.some.inj (hfirst'.symm.trans hsecond')
      rfl

end Delegatus.StateStore
