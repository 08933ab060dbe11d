import Delegatus.StateWriters

/-!
# What an entry of the change log says

An upsert entry names the row that its key holds under the entry's revision, and a delete entry a key
that holds none, until a later entry names the key again.  `Tells` is this for the entries of one
transaction, and `Records` what every writer commits.  `Recorded` keeps it for a whole run: `history`
holds every entry that was ever logged, those that the pruning took included.
-/

namespace Delegatus.StateStore

open Refusals (bind_eq_ok run_invariant all_eq_ok)

variable {κ τ : Type} [LinearOrder κ]

/-- What an entry of the log says of its key. -/
def Change.Reads (change : Change κ) (c : Collection κ) : Prop :=
  match change.operation with
  | .upsert => ∃ row, c.rows.get? change.rowKey = some row ∧ row.rowRevision = change.revision
  | .delete => c.rows.get? change.rowKey = none

theorem Change.Reads.congr {change : Change κ} {c d : Collection κ} (h : change.Reads c)
    (hsame : d.rows.get? change.rowKey = c.rows.get? change.rowKey) : change.Reads d := by
  unfold Change.Reads at h ⊢
  rw [hsame]
  exact h

/-- The entries of a revision are one for a key, and each says what its key holds. -/
structure Tells (revision : Nat) (c : Collection κ) : Prop where
  reads : ∀ change ∈ c.changes, change.revision = revision → change.Reads c
  unique : ∀ a ∈ c.changes, ∀ b ∈ c.changes, a.revision = revision → b.revision = revision →
    a.rowKey = b.rowKey → a = b

/-- A statement at one key, and then its entry. -/
theorem Tells.insert {revision : Nat} {c mid out : Collection κ} {change : Change κ}
    (h : Tells revision c) (hchanges : mid.changes = c.changes)
    (hframe : ∀ key, key ≠ change.rowKey → mid.rows.get? key = c.rows.get? key)
    (hreads : change.Reads mid) (hrevision : change.revision = revision)
    (hout : insertChange mid change = .ok out) : Tells revision out := by
  obtain ⟨hfresh, rfl⟩ := insertChange_ok hout
  have hother : ∀ held ∈ c.changes, held.revision = revision → held.rowKey ≠ change.rowKey := by
    intro held hheld hstamp hkey
    apply hfresh
    rw [← hchanges] at hheld
    exact ⟨held, hheld, hstamp.trans hrevision.symm, hkey⟩
  constructor
  · intro held hheld hstamp
    rcases List.mem_append.mp hheld with hold | hnew
    · rw [hchanges] at hold
      exact (h.reads held hold hstamp).congr (hframe _ (hother held hold hstamp))
    · rw [List.mem_singleton.mp hnew]
      exact hreads
  · intro a ha b hb ha' hb' hkey
    rw [hchanges] at ha hb
    rcases List.mem_append.mp ha with ha | ha <;> rcases List.mem_append.mp hb with hb | hb
    · exact h.unique a ha b hb ha' hb' hkey
    · rw [List.mem_singleton.mp hb] at hkey
      exact absurd hkey (hother a ha ha')
    · rw [List.mem_singleton.mp ha] at hkey
      exact absurd hkey.symm (hother b hb hb')
    · rw [List.mem_singleton.mp ha, List.mem_singleton.mp hb]

theorem tells_logUpsert {c out : Collection κ} {row : Row κ} (h : Tells row.rowRevision c)
    (hout : logUpsert upsertRow c row = .ok out) : Tells row.rowRevision out := by
  have hinsert : insertChange (upsertRow c row) ⟨row.rowRevision, row.rowKey, .upsert⟩ = .ok out := hout
  refine h.insert ?_ ?_ ?_ ?_ hinsert
  · rfl
  · intro key hkey
    rw [upsertRow, Table.get?_set, if_neg hkey]
  · refine ⟨row, ?_, rfl⟩
    rw [upsertRow, Table.get?_set, if_pos rfl]
  · rfl

theorem tells_logDelete {revision : Nat} {c out : Collection κ} {key : κ} (h : Tells revision c)
    (hout : logDelete revision c key = .ok out) : Tells revision out := by
  have hinsert : insertChange (deleteRow c key) ⟨revision, key, .delete⟩ = .ok out := hout
  refine h.insert ?_ ?_ ?_ ?_ hinsert
  · rfl
  · intro other hkey
    rw [deleteRow, Table.get?_delete, if_neg hkey]
  · change (deleteRow c key).rows.get? key = none
    rw [deleteRow, Table.get?_delete, if_pos rfl]
  · rfl

theorem tells_upserts {revision : Nat} {c out : Collection κ} {rows : List (Row κ)}
    (hrows : ∀ row ∈ rows, row.rowRevision = revision) (hc : Tells revision c)
    (h : Refusals.run (logUpsert upsertRow) c rows = .ok out) : Tells revision out := by
  apply run_invariant (I := Tells revision) ?_ hc h
  intro before row next hrow hbefore hnext
  rw [← hrows row hrow] at hbefore ⊢
  exact tells_logUpsert hbefore hnext

theorem tells_deletes {revision : Nat} {c out : Collection κ} {keys : List κ} (hc : Tells revision c)
    (h : Refusals.run (logDelete revision) c keys = .ok out) : Tells revision out := by
  apply run_invariant (I := Tells revision) ?_ hc h
  intro before key next _ hbefore hnext
  exact tells_logDelete hbefore hnext

variable [EmptyCollection κ]

/-- The row holds a record's text under the record's key. -/
def FromRecord (options : Options κ τ) (row : Row κ) : Prop :=
  ∃ record, options.key record = row.rowKey ∧ options.stringify record = row.valueJson ∧
    row.rowKey ≠ ∅

/-- The key is a record's. -/
def KeyOf (options : Options κ τ) (key : κ) : Prop := ∃ record, options.key record = key ∧ key ≠ ∅

omit [LinearOrder κ] in
theorem FromRecord.keyOf {options : Options κ τ} {row : Row κ} (h : FromRecord options row) :
    KeyOf options row.rowKey := by
  obtain ⟨record, hkey, -, hsome⟩ := h
  exact ⟨record, hkey, hsome⟩

/-- The keys that the log names under a revision are records'. -/
def Names (options : Options κ τ) (revision : Nat) (c : Collection κ) : Prop :=
  ∀ change ∈ c.changes, change.revision = revision → KeyOf options change.rowKey

theorem Names.insert {options : Options κ τ} {revision : Nat} {c mid out : Collection κ}
    {change : Change κ} (h : Names options revision c) (hchanges : mid.changes = c.changes)
    (hkey : KeyOf options change.rowKey) (hout : insertChange mid change = .ok out) :
    Names options revision out := by
  obtain ⟨-, rfl⟩ := insertChange_ok hout
  intro held hheld hstamp
  rcases List.mem_append.mp hheld with hold | hnew
  · rw [hchanges] at hold
    exact h held hold hstamp
  · rw [List.mem_singleton.mp hnew]
    exact hkey

/-- Every row holds a record's text under its key. -/
def Keyed (options : Options κ τ) (c : Collection κ) : Prop :=
  ∀ row ∈ c.rows.rows, FromRecord options row

theorem keyed_upsertRow {options : Options κ τ} {c : Collection κ} {row : Row κ}
    (h : Keyed options c) (hrow : FromRecord options row) : Keyed options (upsertRow c row) := by
  intro other hother
  rcases Table.mem_set.mp hother with rfl | ⟨hold, -⟩
  · exact hrow
  · exact h other hold

theorem keyed_deleteRow {options : Options κ τ} {c : Collection κ} (h : Keyed options c) (key : κ) :
    Keyed options (deleteRow c key) :=
  fun other hother => h other (Table.mem_delete.mp hother).1

/-! ### What a writer commits -/

/-- What a writer leaves of a collection and its log. -/
structure Records (options : Options κ τ) (c out : Collection κ) : Prop where
  revision_le : c.revision ≤ out.revision
  floor_le : c.changeFloor ≤ out.changeFloor
  bounded : out.changeFloor ≤ out.revision
  old : ∀ change ∈ out.changes, change.revision ≤ c.revision → change ∈ c.changes
  kept : ∀ change ∈ c.changes, out.changeFloor < change.revision → change ∈ out.changes
  le : ∀ change ∈ out.changes, change.revision ≤ out.revision
  reads : ∀ change ∈ out.changes, c.revision < change.revision → change.Reads out
  unique : ∀ a ∈ out.changes, ∀ b ∈ out.changes, c.revision < a.revision → a.revision = b.revision →
    a.rowKey = b.rowKey → a = b
  logged : ∀ key, c.rows.get? key ≠ out.rows.get? key →
    ∃ change ∈ out.changes, c.revision < change.revision ∧ change.rowKey = key
  keyed : Keyed options c → Keyed options out
  names : ∀ change ∈ out.changes, c.revision < change.revision → KeyOf options change.rowKey

omit [EmptyCollection κ] in
theorem le_of_sound {options : Options κ τ} {c : Collection κ} (hsound : Sound options c) :
    ∀ change ∈ c.changes, change.revision ≤ c.revision :=
  fun change hchange => hsound.bounded.logged_le _ _ ⟨change, hchange, rfl, rfl⟩

omit [EmptyCollection κ] in
/-- Nothing is logged under the next revision yet. -/
theorem not_next {options : Options κ τ} {c : Collection κ} (hsound : Sound options c) :
    ∀ change ∈ c.changes, change.revision ≠ c.revision + 1 := by
  intro change hchange hstamp
  have := le_of_sound hsound change hchange
  omega

omit [EmptyCollection κ] in
theorem tells_next {options : Options κ τ} {c : Collection κ} (hsound : Sound options c) :
    Tells (c.revision + 1) c := by
  have hnone := not_next hsound
  exact ⟨fun change hchange hstamp => absurd hstamp (hnone change hchange),
    fun a ha _ _ hstamp => absurd hstamp (hnone a ha)⟩

/-- A writer that wrote nothing. -/
theorem records_unchanged {options : Options κ τ} {c out : Collection κ} (hsound : Sound options c)
    (hrevision : out.revision = c.revision) (hfloor : out.changeFloor = c.changeFloor)
    (hchanges : out.changes = c.changes) (hrows : ∀ key, out.rows.get? key = c.rows.get? key) :
    Records options c out := by
  have hnone : ∀ change ∈ out.changes, ¬ c.revision < change.revision := by
    intro change hchange
    rw [hchanges] at hchange
    exact not_lt.mpr (le_of_sound hsound change hchange)
  refine ⟨hrevision.ge, hfloor.ge, ?_, ?_, ?_, ?_, ?_, ?_, ?_, ?_, ?_⟩
  · rw [hfloor, hrevision]
    exact hsound.bounded.floor_le
  · intro change hchange _
    rwa [hchanges] at hchange
  · intro change hchange _
    rwa [hchanges]
  · intro change hchange
    rw [hrevision]
    exact not_lt.mp (hnone change hchange)
  · exact fun change hchange hlater => absurd hlater (hnone change hchange)
  · exact fun a ha _ _ hlater => absurd hlater (hnone a ha)
  · exact fun key hdiffers => absurd (hrows key).symm hdiffers
  · intro hkeyed row hrow
    have hget := Table.get?_eq_some.mpr ⟨hrow, rfl⟩
    exact hkeyed row (Table.get?_eq_some.mp ((hrows row.rowKey).symm.trans hget)).1
  · exact fun change hchange hlater => absurd hlater (hnone change hchange)

omit [EmptyCollection κ] in
/-- The pruning leaves the floor below the revision. -/
theorem floor_finish_lt {c : Collection κ} {revision : Nat} (h : c.changeFloor < revision) :
    (finish c revision).changeFloor < revision := by
  unfold finish pruneChanges
  dsimp only
  split
  · exact h
  · have hretention : 0 < CHANGE_RETENTION_REVISIONS := by decide
    apply max_lt h
    omega

/-- **A transaction that told what it wrote records it.** -/
theorem records_of_finish {options : Options κ τ} {c c' : Collection κ} (hsound : Sound options c)
    (hwrote : Wrote (c.revision + 1) Settled c c') (htells : Tells (c.revision + 1) c')
    (hkeyed : Keyed options c → Keyed options c') (hnames : Names options (c.revision + 1) c') :
    Records options c (finish c' (c.revision + 1)) := by
  have hout := finish_finished c' (c.revision + 1)
  have hfloor : (finish c' (c.revision + 1)).changeFloor < c.revision + 1 := by
    apply floor_finish_lt
    rw [hwrote.floor_eq]
    exact Nat.lt_succ_of_le hsound.bounded.floor_le
  have hstamp : ∀ change ∈ c'.changes, c.revision < change.revision →
      change.revision = c.revision + 1 := by
    intro change hchange hlater
    rcases hwrote.only change hchange with hold | hnew
    · exact absurd (le_of_sound hsound change hold) (not_le.mpr hlater)
    · exact hnew
  refine ⟨?_, ?_, ?_, ?_, ?_, ?_, ?_, ?_, ?_, ?_, ?_⟩
  · rw [hout.revision_eq]
    exact Nat.le_succ _
  · exact hwrote.floor_eq.symm.trans_le hout.floor_ge
  · rw [hout.revision_eq]
    exact hfloor.le
  · intro change hchange hle
    rcases hwrote.only change (hout.mem change hchange) with hold | hnew
    · exact hold
    · omega
  · intro change hchange hlater
    exact hout.kept change (hwrote.kept change hchange) hlater
  · intro change hchange
    rw [hout.revision_eq]
    rcases hwrote.only change (hout.mem change hchange) with hold | hnew
    · exact (le_of_sound hsound change hold).trans (Nat.le_succ _)
    · exact hnew.le
  · intro change hchange hlater
    have hmem := hout.mem change hchange
    apply (htells.reads change hmem (hstamp change hmem hlater)).congr
    rw [hout.rows_eq]
  · intro a ha b hb hlater hsame hkey
    have hmem := hout.mem a ha
    have hnow := hstamp a hmem hlater
    exact htells.unique a hmem b (hout.mem b hb) hnow (hsame ▸ hnow) hkey
  · intro key hdiffers
    rw [hout.rows_eq] at hdiffers
    rcases hwrote.logged key hdiffers with hpending | ⟨change, hmem, hnow, hkey⟩
    · exact hpending.elim
    · refine ⟨change, hout.kept change hmem ?_, ?_, hkey⟩
      · rw [hnow]
        exact hfloor
      · rw [hnow]
        exact Nat.lt_succ_self _
  · intro hbefore row hrow
    rw [hout.rows_eq] at hrow
    exact hkeyed hbefore row hrow
  · intro change hchange hlater
    have hmem := hout.mem change hchange
    exact hnames change hmem (hstamp change hmem hlater)

/-- A plan of records at their keys, and of deletions. -/
theorem records_of_plan {options : Options κ τ} {c out : Collection κ} {plan : Plan κ}
    (hsound : Sound options c) (hrows : ∀ row ∈ plan.upserts, row.rowRevision = c.revision + 1)
    (hrecords : ∀ row ∈ plan.upserts, FromRecord options row)
    (hdeletes : ∀ key ∈ plan.deletes, KeyOf options key)
    (h : writePlan upsertRow c plan (c.revision + 1) = .ok out) : Records options c out := by
  obtain ⟨mid, c', hmid, hc', hout⟩ := writePlan_ok h
  rw [hout]
  apply records_of_finish hsound ((wrote_upserts hrows hmid).trans (wrote_deletes hc'))
  · exact tells_deletes (tells_upserts hrows (tells_next hsound) hmid) hc'
  · intro hkeyed
    have hupserted : Keyed options mid := by
      apply run_invariant (I := Keyed options) ?_ hkeyed hmid
      intro before row next hrow hbefore hnext
      obtain ⟨-, rfl⟩ := insertChange_ok hnext
      exact keyed_upsertRow hbefore (hrecords row hrow)
    apply run_invariant (I := Keyed options) ?_ hupserted hc'
    intro before key next _ hbefore hnext
    obtain ⟨-, rfl⟩ := insertChange_ok hnext
    exact keyed_deleteRow hbefore key
  · have hupserted : Names options (c.revision + 1) mid := by
      apply run_invariant (I := Names options (c.revision + 1)) ?_ ?_ hmid
      · intro before row next hrow hbefore hnext
        exact @Names.insert κ τ _ _ options _ before (upsertRow before row) next _ hbefore rfl
          (hrecords row hrow).keyOf hnext
      · exact fun change hchange hstamp => absurd hstamp (not_next hsound change hchange)
    apply run_invariant (I := Names options (c.revision + 1)) ?_ hupserted hc'
    intro before key next hkey hbefore hnext
    exact @Names.insert κ τ _ _ options _ before (deleteRow before key) next _ hbefore rfl
      (hdeletes key hkey) hnext

/-- The row of a record that is about to be written. -/
theorem fromRecord_row {options : Options κ τ} (c : Collection κ) {record : τ}
    (hvalid : validate options record = .ok ()) (revision order : Nat) :
    FromRecord options ((prepare options c record).row revision order) := by
  refine ⟨record, rfl, rfl, ?_⟩
  unfold validate at hvalid
  split at hvalid
  · nomatch hvalid
  · next hsome => exact hsome

theorem persistReplacement_records {options : Options κ τ} {records : List τ} {mergeOmitted : Bool}
    {deleteKeys appendKeys : List κ} {c out : Collection κ} (hsound : Sound options c)
    (hkeyed : Keyed options c)
    (h : persistReplacement options records mergeOmitted deleteKeys appendKeys c = .ok out) :
    Records options c out := by
  unfold persistReplacement at h
  obtain ⟨_, hvalid, h⟩ := bind_eq_ok.mp h
  simp only at h
  split at h
  · nomatch h
  split at h
  · nomatch h
  obtain ⟨_, -, h⟩ := bind_eq_ok.mp h
  obtain ⟨_, -, h⟩ := bind_eq_ok.mp h
  cases mergeOmitted with
  | true =>
    simp only [if_true] at h
    split_ifs at h
    · obtain rfl := Except.ok.inj h
      exact records_unchanged hsound rfl rfl rfl fun _ => rfl
    · apply records_of_plan hsound ?_ ?_ ?_ h
      · intro row hrow
        exact rowRevision_rowsOf hrow
      · intro row hrow
        obtain ⟨entry, hentry, rfl⟩ := List.mem_map.mp hrow
        obtain ⟨record, hrecord, hof⟩ :=
          List.mem_map.mp (List.mem_filter.mp (mem_numbered hentry)).1
        rw [← hof]
        exact fromRecord_row c (all_eq_ok.mp hvalid record hrecord) _ _
      · intro key hkey
        obtain ⟨row, hrow, rfl⟩ := Table.has_eq_true.mp (List.mem_filter.mp hkey).2
        exact (hkeyed row hrow).keyOf
  | false =>
    simp only [Bool.false_eq_true, if_false] at h
    split_ifs at h
    · obtain rfl := Except.ok.inj h
      exact records_unchanged hsound rfl rfl rfl fun _ => rfl
    · apply records_of_plan hsound ?_ ?_ ?_ h
      · intro row hrow
        exact rowRevision_rowsOf hrow
      · intro row hrow
        obtain ⟨entry, hentry, rfl⟩ := List.mem_map.mp hrow
        have hencoded := List.fst_mem_of_mem_zipIdx (List.mem_filter.mp hentry).1
        obtain ⟨record, hrecord, hof⟩ := List.mem_map.mp hencoded
        rw [← hof]
        exact fromRecord_row c (all_eq_ok.mp hvalid record hrecord) _ _
      · intro key hkey
        obtain ⟨row, hrow, rfl⟩ := List.mem_map.mp hkey
        exact (hkeyed row (List.mem_filter.mp hrow).1).keyOf

/-! ### Bounded patches -/

/-- Each entry of `changed` says what its key holds. -/
def Marked (revision : Nat) (tx : BoundedTransaction κ) : Prop :=
  ∀ entry ∈ tx.changed.rows, Change.Reads ⟨revision, entry.1, entry.2⟩ tx.collection

omit [EmptyCollection κ] in
theorem Marked.write {revision : Nat} {tx : BoundedTransaction κ} {d : Collection κ} {key : κ}
    {operation : Operation} (h : Marked revision tx)
    (hframe : ∀ other, other ≠ key → d.rows.get? other = tx.collection.rows.get? other)
    (hreads : Change.Reads ⟨revision, key, operation⟩ d) :
    Marked revision { tx with collection := d, changed := tx.changed.set (key, operation) } := by
  intro entry hentry
  rcases Table.mem_set.mp hentry with rfl | ⟨hold, hne⟩
  · exact hreads
  · exact (h entry hold).congr (hframe _ hne)

omit [EmptyCollection κ] in
theorem get?_upsertKeepingOrder_self (c : Collection κ) (row : Row κ) :
    ∃ held, (upsertKeepingOrder c row).rows.get? row.rowKey = some held ∧
      held.rowRevision = row.rowRevision := by
  unfold upsertKeepingOrder
  split
  · exact ⟨row, by rw [upsertRow, Table.get?_set, if_pos rfl], rfl⟩
  · next held _ =>
    exact ⟨{ row with rowOrder := held.rowOrder }, by rw [upsertRow, Table.get?_set, if_pos rfl], rfl⟩

theorem keyed_upsertKeepingOrder {options : Options κ τ} {c : Collection κ} {row : Row κ}
    (h : Keyed options c) (hrow : FromRecord options row) :
    Keyed options (upsertKeepingOrder c row) := by
  unfold upsertKeepingOrder
  split
  · exact keyed_upsertRow h hrow
  · exact keyed_upsertRow h hrow

/-- What the operations of a bounded patch keep. -/
structure Patching (options : Options κ τ) (c : Collection κ) (tx : BoundedTransaction κ) : Prop where
  patched : Patched options c tx
  marked : Marked (c.revision + 1) tx
  keyed : Keyed options c → Keyed options tx.collection
  names : ∀ entry ∈ tx.changed.rows, KeyOf options entry.1

theorem Patching.consume {options : Options κ τ} {c : Collection κ} {tx tx' : BoundedTransaction κ}
    {cost : Nat} (h : Patching options c tx) (hconsume : consume tx cost = .ok tx') :
    Patching options c tx' := by
  obtain ⟨hcollection, hchanged⟩ := consume_ok hconsume
  refine ⟨h.patched.consume hconsume, ?_, ?_, ?_⟩
  · intro entry hentry
    rw [hcollection]
    rw [hchanged] at hentry
    exact h.marked entry hentry
  · rw [hcollection]
    exact h.keyed
  · rw [hchanged]
    exact h.names

theorem Patching.applyOperation {options : Options κ τ} {c : Collection κ}
    {tx tx' : BoundedTransaction κ} {operation : RowOperation κ τ} (h : Patching options c tx)
    (hdelete : ∀ key, operation ≠ .delete key)
    (hstep : applyOperation options (c.revision + 1) tx operation = .ok tx') :
    Patching options c tx' := by
  have hpatched := h.patched.applyOperation hstep
  cases operation with
  | lookup cost => exact h.consume hstep
  | put record =>
    unfold StateStore.applyOperation at hstep
    obtain ⟨tx₁, hconsume, hstep⟩ := bind_eq_ok.mp hstep
    obtain ⟨_, hvalid, hstep⟩ := bind_eq_ok.mp hstep
    obtain ⟨_, -, hstep⟩ := bind_eq_ok.mp hstep
    obtain rfl := Except.ok.inj hstep
    have hmid := h.consume hconsume
    have hrow := fromRecord_row tx₁.collection hvalid (c.revision + 1) (nextOrder tx₁.collection)
    refine ⟨hpatched, ?_, fun hkeyed => keyed_upsertKeepingOrder (hmid.keyed hkeyed) hrow, ?_⟩
    · apply hmid.marked.write
      · intro other hne
        exact get?_upsertKeepingOrder _ (Ne.symm hne)
      · exact get?_upsertKeepingOrder_self _ _
    · intro entry hentry
      rcases Table.mem_set.mp hentry with rfl | ⟨hold, -⟩
      · exact hrow.keyOf
      · exact hmid.names entry hold
  | delete key => exact absurd rfl (hdelete key)

omit [EmptyCollection κ] in
/-- The log of what is marked tells it. -/
theorem tells_logChange {revision : Nat} {c out : Collection κ} {entries : List (κ × Operation)}
    (hreads : ∀ entry ∈ entries, Change.Reads ⟨revision, entry.1, entry.2⟩ c) (hc : Tells revision c)
    (h : Refusals.run (logChange revision) c entries = .ok out) : Tells revision out := by
  have hkept : Tells revision out ∧ out.rows = c.rows := by
    apply run_invariant (I := fun mid => Tells revision mid ∧ mid.rows = c.rows) ?_ ⟨hc, rfl⟩ h
    intro mid entry next hentry hmid hnext
    have hinsert : insertChange mid ⟨revision, entry.1, entry.2⟩ = .ok next := hnext
    refine ⟨hmid.1.insert rfl (fun _ _ => rfl) ((hreads entry hentry).congr (by rw [hmid.2])) ?_ hinsert, ?_⟩
    · rfl
    · obtain ⟨-, rfl⟩ := insertChange_ok hnext
      exact hmid.2
  exact hkept.1

/-- A bounded patch that deletes nothing. -/
theorem boundedPatch_records {options : Options κ τ} {limit : Nat}
    {operations : List (RowOperation κ τ)} {companionRows : Nat} {c out : Collection κ}
    (hsound : Sound options c) (hputs : ∀ key, RowOperation.delete key ∉ operations)
    (h : boundedPatch options limit operations companionRows c = .ok out) :
    Records options c out := by
  unfold boundedPatch at h
  split_ifs at h
  obtain ⟨tx₁, hrun, h⟩ := bind_eq_ok.mp h
  obtain ⟨tx, hconsume, h⟩ := bind_eq_ok.mp h
  have hstart : Patching options c ⟨c, limit, Table.empty⟩ :=
    ⟨⟨Wrote.refl _ _ _, rfl, hsound.placed⟩, fun _ hentry => (nomatch hentry), fun hkeyed => hkeyed,
      fun _ hentry => (nomatch hentry)⟩
  have hran : Patching options c tx₁ := by
    apply run_invariant (I := Patching options c) ?_ hstart hrun
    intro before operation next hmem hbefore hnext
    apply hbefore.applyOperation ?_ hnext
    rintro key rfl
    exact hputs key hmem
  have htx := hran.consume hconsume
  split_ifs at h with hempty
  · obtain rfl := Except.ok.inj h
    have hnone := List.isEmpty_iff.mp hempty
    apply records_unchanged hsound htx.patched.wrote.revision_eq htx.patched.wrote.floor_eq
      htx.patched.changes_eq
    intro key
    by_contra hdiffers
    rcases htx.patched.wrote.logged key (Ne.symm hdiffers) with hpending | ⟨change, hmem, hnow, -⟩
    · obtain ⟨entry, hentry, -⟩ := Table.has_eq_true.mp hpending
      rw [hnone] at hentry
      exact nomatch hentry
    · rw [htx.patched.changes_eq] at hmem
      exact not_next hsound change hmem hnow
  · obtain ⟨logged, hlog, h⟩ := bind_eq_ok.mp h
    have hwrote := (htx.patched.settled hlog).1
    have htells : Tells (c.revision + 1) tx.collection := by
      refine ⟨?_, ?_⟩
      · rw [htx.patched.changes_eq]
        exact fun change hchange hnow => absurd hnow (not_next hsound change hchange)
      · rw [htx.patched.changes_eq]
        exact (tells_next hsound).unique
    simp only [Except.ok.injEq] at h
    rw [← h]
    apply records_of_finish hsound hwrote (tells_logChange htx.marked htells hlog)
    · intro hkeyed row hrow
      rw [(log_changed hlog).1] at hrow
      exact htx.keyed hkeyed row hrow
    · apply run_invariant (I := Names options (c.revision + 1)) ?_ ?_ hlog
      · intro before entry next hentry hbefore hnext
        exact hbefore.insert rfl (htx.names entry hentry) hnext
      · rw [Names, htx.patched.changes_eq]
        exact fun change hchange hstamp => absurd hstamp (not_next hsound change hchange)

/-! ### Every entry of a run -/

/-- The entries that a write added to the log. -/
def newEntries (c out : Collection κ) : List (Change κ) :=
  out.changes.filter fun change => c.revision < change.revision

omit [LinearOrder κ] [EmptyCollection κ] in
theorem mem_newEntries {c out : Collection κ} {change : Change κ} :
    change ∈ newEntries c out ↔ change ∈ out.changes ∧ c.revision < change.revision := by
  rw [newEntries, List.mem_filter, decide_eq_true_eq]

/-- A later entry for the same key. -/
def Superseded (history : List (Change κ)) (change : Change κ) : Prop :=
  ∃ later ∈ history, later.rowKey = change.rowKey ∧ change.revision < later.revision

/-- `history` holds every entry that was ever logged. -/
structure Recorded (history : List (Change κ)) (c : Collection κ) : Prop where
  mem : ∀ change ∈ c.changes, change ∈ history
  kept : ∀ change ∈ history, c.changeFloor < change.revision → change ∈ c.changes
  le : ∀ change ∈ history, change.revision ≤ c.revision
  unique : ∀ a ∈ history, ∀ b ∈ history, a.revision = b.revision → a.rowKey = b.rowKey → a = b
  reads : ∀ change ∈ history, Superseded history change ∨ change.Reads c

/-- A write leaves what an entry names, or it supersedes the entry. -/
theorem Records.superseded {options : Options κ τ} {c out : Collection κ}
    (h : Records options c out) {history : List (Change κ)} (hc : Recorded history c)
    {change : Change κ} (hchange : change ∈ history) :
    Superseded (history ++ newEntries c out) change ∨
      out.rows.get? change.rowKey = c.rows.get? change.rowKey := by
  by_cases hsame : c.rows.get? change.rowKey = out.rows.get? change.rowKey
  · exact Or.inr hsame.symm
  · obtain ⟨later, hlater, hnew, hkey⟩ := h.logged _ hsame
    left
    refine ⟨later, List.mem_append_right _ (mem_newEntries.mpr ⟨hlater, hnew⟩), hkey, ?_⟩
    exact (hc.le change hchange).trans_lt hnew

omit [LinearOrder κ] [EmptyCollection κ] in
theorem Superseded.mono {history more : List (Change κ)} {change : Change κ}
    (h : Superseded history change) : Superseded (history ++ more) change := by
  obtain ⟨later, hlater, hrest⟩ := h
  exact ⟨later, List.mem_append_left _ hlater, hrest⟩

/-- **A write keeps the record.** -/
theorem Recorded.write {options : Options κ τ} {c out : Collection κ} {history : List (Change κ)}
    (hc : Recorded history c) (h : Records options c out) :
    Recorded (history ++ newEntries c out) out := by
  refine ⟨?_, ?_, ?_, ?_, ?_⟩
  · intro change hchange
    rw [List.mem_append, mem_newEntries]
    rcases Nat.lt_or_ge c.revision change.revision with hnew | hold
    · exact Or.inr ⟨hchange, hnew⟩
    · exact Or.inl (hc.mem change (h.old change hchange hold))
  · intro change hchange hfloor
    rcases List.mem_append.mp hchange with hold | hnew
    · exact h.kept change (hc.kept change hold (h.floor_le.trans_lt hfloor)) hfloor
    · exact (mem_newEntries.mp hnew).1
  · intro change hchange
    rcases List.mem_append.mp hchange with hold | hnew
    · exact (hc.le change hold).trans h.revision_le
    · exact h.le change (mem_newEntries.mp hnew).1
  · intro a ha b hb hstamp hkey
    rcases List.mem_append.mp ha with ha | ha <;> rcases List.mem_append.mp hb with hb | hb
    · exact hc.unique a ha b hb hstamp hkey
    · have hle := hc.le a ha
      have hlt := (mem_newEntries.mp hb).2
      omega
    · have hle := hc.le b hb
      have hlt := (mem_newEntries.mp ha).2
      omega
    · obtain ⟨ha, hlater⟩ := mem_newEntries.mp ha
      exact h.unique a ha b (mem_newEntries.mp hb).1 hlater hstamp hkey
  · intro change hchange
    rcases List.mem_append.mp hchange with hold | hnew
    · rcases hc.reads change hold with hlater | hreads
      · exact Or.inl hlater.mono
      · exact (h.superseded hc hold).imp_right hreads.congr
    · obtain ⟨hmem, hlater⟩ := mem_newEntries.mp hnew
      exact Or.inr (h.reads change hmem hlater)

end Delegatus.StateStore
