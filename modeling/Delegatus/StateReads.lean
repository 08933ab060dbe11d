import Delegatus.DistinctSorts
import Delegatus.StateCommits

/-!
# Cached reads of a collection

`loadReadonly` answers from a cache of decoded records.  It is up to date when its revision
is the collection's; otherwise it is patched at the keys the change log names, or rebuilt.
Which cache a call finds is the business of the read context: one instance's own cache or
the slot it shares, and either may have been dropped.

A row's record carries its row order and row revision.  Records and order are patched
separately: only when an order or a presence changed are the records sorted again, and a
record whose row revision is the held one is not decoded again.
-/

namespace Delegatus.StateStore

open ChangeLogs (Follows)
open DistinctSorts (pairwise_of_distinct)
open Refusals (bind_eq_ok map_eq_ok run_cons_ok all_eq_ok)

variable {κ τ : Type}

/-- `CachedRecord`, under its key. -/
structure CachedRecord (κ τ : Type*) where
  key : κ
  sourceBytes : Nat
  value : τ
  order : Nat
  rowRevision : Nat

/-- `CollectionCache`. -/
structure CollectionCache (κ τ : Type*) where
  revision : Nat
  records : Table (CachedRecord.key : CachedRecord κ τ → κ)
  orderedKeys : List κ
  ordered : List τ

/-- What a readable row puts into the cache. -/
def cachedRecord (options : Options κ τ) (row : Row κ) : Option (CachedRecord κ τ) :=
  (recordOf options row).map fun value =>
    { key := row.rowKey
      sourceBytes := row.valueJson.length * 2
      value := value
      order := row.rowOrder
      rowRevision := row.rowRevision }

/-- `left.order - right.order || left.key.localeCompare(right.key)` is not positive. -/
def cachedBefore (localeCompare : κ → κ → Int) (left right : CachedRecord κ τ) : Prop :=
  if left.order = right.order then localeCompare left.key right.key ≤ 0
  else left.order < right.order

instance (localeCompare : κ → κ → Int) (left right : CachedRecord κ τ) :
    Decidable (cachedBefore localeCompare left right) := by
  unfold cachedBefore
  infer_instance

/-- `createCache`. -/
def createCache (localeCompare : κ → κ → Int) (revision : Nat)
    (records : Table (CachedRecord.key : CachedRecord κ τ → κ)) : CollectionCache κ τ :=
  let entries := records.rows.insertionSort (cachedBefore localeCompare)
  { revision := revision
    records := records
    orderedKeys := entries.map CachedRecord.key
    ordered := entries.map CachedRecord.value }

variable [LinearOrder κ]

/-- `createCacheWithOrder`. -/
def createCacheWithOrder (revision : Nat)
    (records : Table (CachedRecord.key : CachedRecord κ τ → κ)) (orderedKeys : List κ) :
    CollectionCache κ τ where
  revision := revision
  records := records
  orderedKeys := orderedKeys
  ordered := orderedKeys.filterMap fun key => (records.get? key).map CachedRecord.value

/-- `loadFull`. -/
def loadFull (options : Options κ τ) (localeCompare : κ → κ → Int) (c : Collection κ) :
    Except (Refusal κ) (CollectionCache κ τ) := do
  let rows := c.rows.rows.insertionSort rowBefore
  Refusals.all (readable options) rows
  .ok (createCache localeCompare c.revision (Table.ofList (rows.filterMap (cachedRecord options))))

/-- The keys the change log names after a revision, each once.  No entry is past the
collection's revision. -/
def changedKeys (c : Collection κ) (revision : Nat) : List κ :=
  (((c.changes.filter fun change => revision < change.revision ∧ change.revision ≤ c.revision
    ).insertionSort changeBefore).map Change.rowKey).eraseDups

/-- The records patched so far, and `orderChanged`. -/
abbrev Patch (κ τ : Type) := Table (CachedRecord.key : CachedRecord κ τ → κ) × Bool

/-- The loop body of the incremental read, at one changed key. -/
def patchRecord (options : Options κ τ) (c : Collection κ) (patch : Patch κ τ) (key : κ) :
    Except (Refusal κ) (Patch κ τ) :=
  match c.rows.get? key with
  | none => .ok (patch.1.delete key, patch.2 || patch.1.has key)
  | some row =>
    match patch.1.get? key with
    | none =>
      (decodeRow options row.valueJson).map fun _ =>
        (match cachedRecord options row with
          | none => patch.1.delete key
          | some record => patch.1.set record, true)
    | some held =>
      let orderChanged := patch.2 || held.order ≠ row.rowOrder
      if held.rowRevision = row.rowRevision then
        .ok (patch.1.set { held with order := row.rowOrder, rowRevision := row.rowRevision },
          orderChanged)
      else
        (decodeRow options row.valueJson).map fun _ =>
          (match cachedRecord options row with
            | none => patch.1.delete key
            | some record => patch.1.set record, orderChanged)

/-- `loadReadonly`, from the cache it finds: the cache it leaves.  The records it answers
with are the cache's `ordered`. -/
def loadReadonly (options : Options κ τ) (localeCompare : κ → κ → Int)
    (cache? : Option (CollectionCache κ τ)) (c : Collection κ) :
    Except (Refusal κ) (CollectionCache κ τ) :=
  match cache? with
  | none => loadFull options localeCompare c
  | some cache =>
    if cache.revision = c.revision then .ok cache
    else if c.revision < cache.revision ∨ cache.revision < c.changeFloor then
      loadFull options localeCompare c
    else
      let keys := changedKeys c cache.revision
      if keys.isEmpty then loadFull options localeCompare c
      else do
        let patch ← Refusals.run (patchRecord options c) (cache.records, false) keys
        if patch.2 then .ok (createCache localeCompare c.revision patch.1)
        else .ok (createCacheWithOrder c.revision patch.1 cache.orderedKeys)

/-! ### What the committed rows say -/

/-- The records of a collection's rows, in the order of the rows. -/
def committedRecords (options : Options κ τ) (c : Collection κ) : List τ :=
  (c.rows.rows.insertionSort rowBefore).filterMap (recordOf options)

/-- The cached record that the collection's row of a key asks for. -/
def recordAt (options : Options κ τ) (c : Collection κ) (key : κ) : Option (CachedRecord κ τ) :=
  (c.rows.get? key).bind (cachedRecord options)

omit [LinearOrder κ] in
theorem cachedRecord_eq_some {options : Options κ τ} {row : Row κ} {record : CachedRecord κ τ}
    (h : cachedRecord options row = some record) :
    record.key = row.rowKey ∧ record.order = row.rowOrder ∧ record.rowRevision = row.rowRevision ∧
      recordOf options row = some record.value := by
  obtain ⟨value, hvalue, rfl⟩ := Option.map_eq_some_iff.mp h
  exact ⟨rfl, rfl, rfl, hvalue⟩

omit [LinearOrder κ] in
/-- A row with a record is not protected. -/
theorem unprotected_of_cached {options : Options κ τ} {row : Row κ} {record : CachedRecord κ τ}
    (h : cachedRecord options row = some record) : protectedRow options row = false := by
  rw [protectedRow, (cachedRecord_eq_some h).2.2.2]
  simp

/-! ### Records in row order

The order of a cache is settled by the row orders, since no two records of a sound
collection share one: `localeCompare` is never asked. -/

/-- A list of the records at strictly increasing orders. -/
structure InOrder (records : Table (CachedRecord.key : CachedRecord κ τ → κ))
    (entries : List (CachedRecord κ τ)) : Prop where
  mem_iff : ∀ record, record ∈ entries ↔ record ∈ records.rows
  sorted : entries.Pairwise fun a b => a.order < b.order

/-- What a cache answers is its records in order, and its keys list them in that order. -/
structure Arranged (cache : CollectionCache κ τ) (entries : List (CachedRecord κ τ)) : Prop where
  inOrder : InOrder cache.records entries
  ordered_eq : cache.ordered = entries.map CachedRecord.value
  keys_eq : cache.orderedKeys.filterMap cache.records.get? = entries

theorem createCache_arranged {localeCompare : κ → κ → Int} {revision : Nat}
    {records : Table (CachedRecord.key : CachedRecord κ τ → κ)}
    (hdistinct : ∀ a ∈ records.rows, ∀ b ∈ records.rows, a.order = b.order → a = b) :
    Arranged (createCache localeCompare revision records)
      (records.rows.insertionSort (cachedBefore localeCompare)) where
  inOrder := by
    refine ⟨fun record => List.mem_insertionSort _, ?_⟩
    apply pairwise_of_distinct records.rows_nodup hdistinct
    intro a b hne
    rw [cachedBefore, if_neg hne]
  ordered_eq := rfl
  keys_eq := by
    rw [createCache, List.filterMap_map]
    have hself : ∀ record ∈ records.rows.insertionSort (cachedBefore localeCompare),
        (records.get? ∘ CachedRecord.key) record = some record := by
      intro record hrecord
      rw [List.mem_insertionSort] at hrecord
      exact Table.get?_eq_some.mpr ⟨hrecord, rfl⟩
    rw [List.filterMap_congr hself, List.filterMap_some]

/-- Records patched without a change of order stay in the order of the old keys. -/
theorem createCacheWithOrder_arranged {cache : CollectionCache κ τ} {revision : Nat}
    {entries : List (CachedRecord κ τ)}
    {records : Table (CachedRecord.key : CachedRecord κ τ → κ)} (hcache : Arranged cache entries)
    (hsame : ∀ key record, records.get? key = some record →
      ∃ held, cache.records.get? key = some held ∧ held.order = record.order) :
    Arranged (createCacheWithOrder revision records cache.orderedKeys)
      (cache.orderedKeys.filterMap records.get?) where
  inOrder := by
    constructor
    · intro record
      rw [List.mem_filterMap]
      constructor
      · rintro ⟨key, -, hget⟩
        exact (Table.get?_eq_some.mp hget).1
      · intro hrecord
        have hget := Table.get?_eq_some.mpr ⟨hrecord, rfl⟩
        obtain ⟨held, hheld, -⟩ := hsame record.key record hget
        have hentry := (hcache.inOrder.mem_iff held).mpr (Table.get?_eq_some.mp hheld).1
        rw [← hcache.keys_eq] at hentry
        obtain ⟨key, hkey, hheld'⟩ := List.mem_filterMap.mp hentry
        have heq : key = record.key :=
          (Table.get?_eq_some.mp hheld').2.symm.trans (Table.get?_eq_some.mp hheld).2
        exact ⟨key, hkey, heq ▸ hget⟩
    · have hsorted := hcache.inOrder.sorted
      rw [← hcache.keys_eq, List.pairwise_filterMap] at hsorted
      rw [List.pairwise_filterMap]
      apply hsorted.imp
      intro a b hab record hrecord record' hrecord'
      obtain ⟨held, hheld, horder⟩ := hsame a record hrecord
      obtain ⟨held', hheld', horder'⟩ := hsame b record' hrecord'
      rw [← horder, ← horder']
      exact hab held hheld held' hheld'
  ordered_eq := by
    rw [createCacheWithOrder, List.map_filterMap]
  keys_eq := rfl

theorem InOrder.unique {records records' : Table (CachedRecord.key : CachedRecord κ τ → κ)}
    {entries entries' : List (CachedRecord κ τ)} (h : InOrder records entries)
    (h' : InOrder records' entries') (hsame : ∀ key, records.get? key = records'.get? key) :
    entries = entries' := by
  have hmem : ∀ record, record ∈ records.rows ↔ record ∈ records'.rows := by
    intro record
    have hleft : records.get? record.key = some record ↔
        record ∈ records.rows ∧ record.key = record.key := Table.get?_eq_some
    have hright : records'.get? record.key = some record ↔
        record ∈ records'.rows ∧ record.key = record.key := Table.get?_eq_some
    rw [hsame] at hleft
    simpa using hleft.symm.trans hright
  apply DistinctSorts.eq_of_mem_iff h.sorted h'.sorted
  intro record
  rw [h.mem_iff, h'.mem_iff, hmem]

/-! ### The incremental loop -/

/-- The order of a key's record is the order of its row, where either is there. -/
def SameOrder (c : Collection κ)
    (records : Table (CachedRecord.key : CachedRecord κ τ → κ)) (key : κ) : Prop :=
  match c.rows.get? key with
  | none => records.get? key = none
  | some row => ∃ held, records.get? key = some held ∧ held.order = row.rowOrder

/-- A held record with its row's revision is the row's record. -/
def Current (options : Options κ τ) (c : Collection κ)
    (records : Table (CachedRecord.key : CachedRecord κ τ → κ)) (key : κ) : Prop :=
  ∀ held row, records.get? key = some held → c.rows.get? key = some row →
    held.rowRevision = row.rowRevision →
      readable options row = .ok () ∧ cachedRecord options row = some held

/-- What one step of the loop leaves. -/
structure Patches (options : Options κ τ) (c : Collection κ) (keys : List κ)
    (start out : Patch κ τ) : Prop where
  get : ∀ key, out.1.get? key =
    if key ∈ keys then recordAt options c key else start.1.get? key
  order : out.2 = false → start.2 = false ∧ ∀ key ∈ keys, SameOrder c start.1 key

theorem get_patched (options : Options κ τ) (row : Row κ)
    (records : Table (CachedRecord.key : CachedRecord κ τ → κ)) (key : κ) :
    (match cachedRecord options row with
      | none => records.delete row.rowKey
      | some record => records.set record).get? key =
      if key = row.rowKey then cachedRecord options row else records.get? key := by
  cases hcached : cachedRecord options row with
  | none => exact Table.get?_delete records row.rowKey key
  | some record =>
    have hkey := (cachedRecord_eq_some hcached).1
    simp only [Table.get?_set, hkey]

theorem patchRecord_ok {options : Options κ τ} {c : Collection κ} {patch : Patch κ τ} {key : κ}
    (hcurrent : Current options c patch.1 key) :
    ((∃ out, patchRecord options c patch key = .ok out) ↔
        ∀ row, c.rows.get? key = some row → readable options row = .ok ()) ∧
      ∀ out, patchRecord options c patch key = .ok out → Patches options c [key] patch out := by
  unfold patchRecord
  cases hrow : c.rows.get? key with
  | none =>
    refine ⟨⟨fun _ row hget => (by cases hget), fun _ => ⟨_, rfl⟩⟩, ?_⟩
    intro out hout
    obtain rfl := Except.ok.inj hout
    constructor
    · intro other
      simp only [Table.get?_delete, List.mem_singleton]
      by_cases heq : other = key
      · rw [if_pos heq, if_pos heq, heq, recordAt, hrow]
        rfl
      · rw [if_neg heq, if_neg heq]
    · intro horder
      simp only [Bool.or_eq_false_iff] at horder
      refine ⟨horder.1, ?_⟩
      intro other hother
      rw [List.mem_singleton.mp hother, SameOrder, hrow]
      rw [Table.get?_eq_none]
      exact Table.has_eq_false.mp horder.2
  | some row =>
    have hkey := (Table.get?_eq_some.mp hrow).2
    -- a decoded row, under an `orderChanged` that speaks for this key
    have hdecoded : ∀ orderChanged,
        (orderChanged = false → patch.2 = false ∧ SameOrder c patch.1 key) →
        ((∃ out, (decodeRow options row.valueJson).map (fun _ =>
            (match cachedRecord options row with
              | none => patch.1.delete key
              | some record => patch.1.set record, orderChanged)) = .ok out) ↔
          ∀ row', some row = some row' → readable options row' = .ok ()) ∧
        ∀ out, (decodeRow options row.valueJson).map (fun _ =>
            (match cachedRecord options row with
              | none => patch.1.delete key
              | some record => patch.1.set record, orderChanged)) = .ok out →
          Patches options c [key] patch out := by
      intro orderChanged horder
      constructor
      · rw [Refusals.map_isOk]
        constructor
        · rintro ⟨value, hvalue⟩ row' heq
          obtain rfl := Option.some.inj heq
          rw [readable, hvalue]
          rfl
        · intro hreadable
          exact ⟨_, recordOf_of_readable (hreadable row rfl)⟩
      · intro out hout
        obtain ⟨value, -, rfl⟩ := map_eq_ok.mp hout
        constructor
        · intro other
          have hget := get_patched options row patch.1 other
          rw [hkey] at hget
          simp only [List.mem_singleton]
          rw [hget]
          by_cases heq : other = key
          · rw [if_pos heq, if_pos heq, heq, recordAt, hrow]
            rfl
          · rw [if_neg heq, if_neg heq]
        · intro hfalse
          obtain ⟨hstart, hsame⟩ := horder hfalse
          refine ⟨hstart, ?_⟩
          intro other hother
          exact List.mem_singleton.mp hother ▸ hsame
    cases hheld : patch.1.get? key with
    | none => exact hdecoded true (by simp)
    | some held =>
      have hsame : (patch.2 || decide (held.order ≠ row.rowOrder)) = false →
          patch.2 = false ∧ SameOrder c patch.1 key := by
        intro hfalse
        simp only [Bool.or_eq_false_iff, decide_eq_false_iff_not, not_not] at hfalse
        refine ⟨hfalse.1, ?_⟩
        rw [SameOrder, hrow]
        exact ⟨held, hheld, hfalse.2⟩
      by_cases hrevision : held.rowRevision = row.rowRevision
      · simp only [if_pos hrevision]
        obtain ⟨hreadable, hcached⟩ := hcurrent held row hheld hrow hrevision
        have hrecord := cachedRecord_eq_some hcached
        have hset : { held with order := row.rowOrder, rowRevision := row.rowRevision } = held := by
          rw [← hrecord.2.1, ← hrecord.2.2.1]
        rw [hset]
        refine ⟨⟨fun _ row' heq => Option.some.inj heq ▸ hreadable, fun _ => ⟨_, rfl⟩⟩, ?_⟩
        intro out hout
        obtain rfl := Except.ok.inj hout
        constructor
        · intro other
          simp only [Table.get?_set, List.mem_singleton, hrecord.1.trans hkey]
          by_cases heq : other = key
          · rw [if_pos heq, if_pos heq, heq, recordAt, hrow]
            exact hcached.symm
          · rw [if_neg heq, if_neg heq]
        · intro hfalse
          obtain ⟨hstart, horder⟩ := hsame hfalse
          refine ⟨hstart, ?_⟩
          intro other hother
          exact List.mem_singleton.mp hother ▸ horder
      · simp only [if_neg hrevision]
        exact hdecoded _ hsame

/-- **The loop patches each key once.**  It succeeds exactly when the rows of its keys
decode. -/
theorem run_patchRecord {options : Options κ τ} {c : Collection κ} {patch : Patch κ τ}
    {keys : List κ} (hnodup : keys.Nodup)
    (hcurrent : ∀ key ∈ keys, Current options c patch.1 key) :
    ((∃ out, Refusals.run (patchRecord options c) patch keys = .ok out) ↔
        ∀ key ∈ keys, ∀ row, c.rows.get? key = some row → readable options row = .ok ()) ∧
      ∀ out, Refusals.run (patchRecord options c) patch keys = .ok out →
        Patches options c keys patch out := by
  induction keys generalizing patch with
  | nil =>
    refine ⟨⟨fun _ => by simp, fun _ => ⟨patch, rfl⟩⟩, ?_⟩
    intro out hout
    obtain rfl := Except.ok.inj hout
    exact ⟨by simp, fun hfalse => ⟨hfalse, by simp⟩⟩
  | cons key rest ih =>
    obtain ⟨hfresh, hrest⟩ := List.nodup_cons.mp hnodup
    obtain ⟨hok, hpatches⟩ := patchRecord_ok (hcurrent key List.mem_cons_self)
    -- the keys that follow are still as they were
    have hkept : ∀ mid, patchRecord options c patch key = .ok mid → ∀ other ∈ rest,
        mid.1.get? other = patch.1.get? other := by
      intro mid hmid other hother
      have hne : other ≠ key := fun heq => hfresh (heq ▸ hother)
      rw [(hpatches mid hmid).get other, if_neg (by simpa using hne)]
    have hmidCurrent : ∀ mid, patchRecord options c patch key = .ok mid → ∀ other ∈ rest,
        Current options c mid.1 other := by
      intro mid hmid other hother held row hheld
      rw [hkept mid hmid other hother] at hheld
      exact hcurrent other (List.mem_cons_of_mem _ hother) held row hheld
    constructor
    · rw [List.forall_mem_cons, ← hok]
      constructor
      · rintro ⟨out, hout⟩
        obtain ⟨mid, hmid, hout⟩ := run_cons_ok.mp hout
        exact ⟨⟨mid, hmid⟩, (ih hrest (hmidCurrent mid hmid)).1.mp ⟨out, hout⟩⟩
      · rintro ⟨⟨mid, hmid⟩, hall⟩
        obtain ⟨out, hout⟩ := (ih hrest (hmidCurrent mid hmid)).1.mpr hall
        exact ⟨out, run_cons_ok.mpr ⟨mid, hmid, hout⟩⟩
    · intro out hout
      obtain ⟨mid, hmid, hout⟩ := run_cons_ok.mp hout
      have hfirst := hpatches mid hmid
      have hlast := (ih hrest (hmidCurrent mid hmid)).2 out hout
      constructor
      · intro other
        rw [hlast.get other]
        by_cases hother : other ∈ rest
        · rw [if_pos hother, if_pos (List.mem_cons_of_mem _ hother)]
        · rw [if_neg hother, hfirst.get other]
          simp [hother]
      · intro hfalse
        obtain ⟨hmidFalse, hrestOrder⟩ := hlast.order hfalse
        obtain ⟨hstart, hkeyOrder⟩ := hfirst.order hmidFalse
        refine ⟨hstart, ?_⟩
        intro other hother
        rcases List.mem_cons.mp hother with rfl | hother
        · exact hkeyOrder other List.mem_cons_self
        · have horder := hrestOrder other hother
          rw [SameOrder, hkept mid hmid other hother] at horder
          exact horder

theorem nodup_changedKeys (c : Collection κ) (revision : Nat) : (changedKeys c revision).Nodup :=
  DistinctSorts.nodup_eraseDups _

theorem mem_changedKeys {c : Collection κ} {revision : Nat} {key : κ} :
    key ∈ changedKeys c revision ↔
      ∃ change ∈ c.changes, revision < change.revision ∧ change.revision ≤ c.revision ∧
        change.rowKey = key := by
  simp only [changedKeys, List.mem_eraseDups, List.mem_map, List.mem_insertionSort, List.mem_filter,
    decide_eq_true_eq]
  constructor
  · rintro ⟨change, ⟨hmem, hlater, hle⟩, hkey⟩
    exact ⟨change, hmem, hlater, hle, hkey⟩
  · rintro ⟨change, hmem, hlater, hle, hkey⟩
    exact ⟨change, ⟨hmem, hlater, hle⟩, hkey⟩

/-! ### What a load leaves -/

/-- The cache is a full read of the collection. -/
structure Mirrors (options : Options κ τ) (c : Collection κ) (cache : CollectionCache κ τ) :
    Prop where
  revision_eq : cache.revision = c.revision
  readable : ∀ row ∈ c.rows.rows, readable options row = .ok ()
  records : ∀ key, cache.records.get? key = recordAt options c key
  arranged : ∃ entries, Arranged cache entries

theorem recordAt_eq_some {options : Options κ τ} {c : Collection κ} {key : κ}
    {record : CachedRecord κ τ} (h : recordAt options c key = some record) :
    ∃ row ∈ c.rows.rows, row.rowKey = key ∧ cachedRecord options row = some record := by
  obtain ⟨row, hrow, hcached⟩ := Option.bind_eq_some_iff.mp h
  obtain ⟨hmem, hkey⟩ := Table.get?_eq_some.mp hrow
  exact ⟨row, hmem, hkey, hcached⟩

/-- No two records of a sound collection share an order. -/
theorem distinct_orders {options : Options κ τ} {c : Collection κ} (hplaced : Placed options c)
    {records : Table (CachedRecord.key : CachedRecord κ τ → κ)}
    (hrecords : ∀ key, records.get? key = recordAt options c key) :
    ∀ a ∈ records.rows, ∀ b ∈ records.rows, a.order = b.order → a = b := by
  intro a ha b hb horder
  have haget := (hrecords a.key).symm.trans (Table.get?_eq_some.mpr ⟨ha, rfl⟩)
  have hbget := (hrecords b.key).symm.trans (Table.get?_eq_some.mpr ⟨hb, rfl⟩)
  obtain ⟨arow, hamem, hakey, hacached⟩ := recordAt_eq_some haget
  obtain ⟨brow, hbmem, hbkey, hbcached⟩ := recordAt_eq_some hbget
  have harow := (cachedRecord_eq_some hacached).2.1
  have hbrow := (cachedRecord_eq_some hbcached).2.1
  have hsame := hplaced arow hamem brow hbmem (unprotected_of_cached hacached)
    (unprotected_of_cached hbcached) (harow.symm.trans (horder.trans hbrow))
  rw [hsame] at hacached
  exact Option.some.inj (hacached.symm.trans hbcached)

instance : Std.Total (rowBefore : Row κ → Row κ → Prop) := by
  constructor
  intro a b
  unfold rowBefore
  rcases lt_trichotomy a.rowOrder b.rowOrder with hlt | heq | hgt
  · exact Or.inl (Or.inl hlt)
  · rcases le_total a.rowKey b.rowKey with hle | hle
    · exact Or.inl (Or.inr ⟨heq, hle⟩)
    · exact Or.inr (Or.inr ⟨heq.symm, hle⟩)
  · exact Or.inr (Or.inl hgt)

instance : IsTrans (Row κ) rowBefore := by
  constructor
  unfold rowBefore
  rintro a b c (hab | ⟨hab, hab'⟩) (hbc | ⟨hbc, hbc'⟩)
  · exact Or.inl (hab.trans hbc)
  · exact Or.inl (hbc ▸ hab)
  · exact Or.inl (hab ▸ hbc)
  · exact Or.inr ⟨hab.trans hbc, hab'.trans hbc'⟩

/-- The rows a full load reads, in its order. -/
theorem sortedRows_pairwise (c : Collection κ) :
    (c.rows.rows.insertionSort rowBefore).Pairwise fun a b =>
      a.rowOrder ≤ b.rowOrder ∧ a.rowKey ≠ b.rowKey := by
  have hsorted := List.pairwise_insertionSort rowBefore c.rows.rows
  have hkeys : ((c.rows.rows.insertionSort rowBefore).map Row.rowKey).Nodup :=
    ((List.perm_insertionSort rowBefore c.rows.rows).map Row.rowKey).nodup_iff.mpr c.rows.nodup
  rw [List.nodup_iff_pairwise_ne, List.pairwise_map] at hkeys
  apply (hsorted.and hkeys).imp
  rintro a b ⟨hbefore, hne⟩
  refine ⟨?_, hne⟩
  rcases hbefore with hlt | ⟨heq, -⟩
  · exact hlt.le
  · exact heq.le

/-- **A full load reads the committed records in row order.** -/
theorem committed_inOrder {options : Options κ τ} {c : Collection κ} (hplaced : Placed options c)
    {records : Table (CachedRecord.key : CachedRecord κ τ → κ)}
    (hrecords : ∀ key, records.get? key = recordAt options c key) :
    InOrder records ((c.rows.rows.insertionSort rowBefore).filterMap (cachedRecord options)) := by
  constructor
  · intro record
    rw [List.mem_filterMap]
    constructor
    · rintro ⟨row, hrow, hcached⟩
      rw [List.mem_insertionSort] at hrow
      have hget : records.get? row.rowKey = some record := by
        rw [hrecords, recordAt, Table.get?_eq_some.mpr ⟨hrow, rfl⟩]
        exact hcached
      exact (Table.get?_eq_some.mp hget).1
    · intro hrecord
      have hget := (hrecords record.key).symm.trans (Table.get?_eq_some.mpr ⟨hrecord, rfl⟩)
      obtain ⟨row, hrow, -, hcached⟩ := recordAt_eq_some hget
      exact ⟨row, (List.mem_insertionSort _).mpr hrow, hcached⟩
  · rw [List.pairwise_filterMap]
    apply (sortedRows_pairwise c).imp_of_mem
    rintro a b ha hb ⟨hle, hne⟩ record hrecord record' hrecord'
    rw [List.mem_insertionSort] at ha hb
    rw [(cachedRecord_eq_some hrecord).2.1, (cachedRecord_eq_some hrecord').2.1]
    refine lt_of_le_of_ne hle ?_
    intro heq
    have hsame := hplaced a ha b hb (unprotected_of_cached hrecord)
      (unprotected_of_cached hrecord') heq
    exact hne (congrArg Row.rowKey hsame)

/-- **What a cache answers is the committed records.** -/
theorem Mirrors.ordered_eq {options : Options κ τ} {c : Collection κ} {cache : CollectionCache κ τ}
    (h : Mirrors options c cache) (hplaced : Placed options c) :
    cache.ordered = committedRecords options c := by
  obtain ⟨entries, harranged⟩ := h.arranged
  have hcommitted := committed_inOrder hplaced h.records
  rw [harranged.ordered_eq, harranged.inOrder.unique hcommitted (fun _ => rfl), committedRecords,
    List.map_filterMap]
  apply List.filterMap_congr
  intro row _
  rw [cachedRecord]
  cases recordOf options row <;> rfl

theorem get_ofList {options : Options κ τ} {c : Collection κ} (key : κ) :
    (Table.ofList ((c.rows.rows.insertionSort rowBefore).filterMap (cachedRecord options)) :
      Table (CachedRecord.key : CachedRecord κ τ → κ)).get? key = recordAt options c key := by
  have hnodup : (((c.rows.rows.insertionSort rowBefore).filterMap (cachedRecord options)).map
      CachedRecord.key).Nodup := by
    rw [List.nodup_iff_pairwise_ne, List.pairwise_map, List.pairwise_filterMap]
    apply (sortedRows_pairwise c).imp
    rintro a b ⟨-, hne⟩ record hrecord record' hrecord'
    rw [(cachedRecord_eq_some hrecord).1, (cachedRecord_eq_some hrecord').1]
    exact hne
  apply Option.ext
  intro record
  rw [Table.get?_eq_some, Table.rows_ofList hnodup, List.mem_filterMap]
  constructor
  · rintro ⟨⟨row, hrow, hcached⟩, hkey⟩
    rw [List.mem_insertionSort] at hrow
    rw [recordAt, Table.get?_eq_some.mpr ⟨hrow, (cachedRecord_eq_some hcached).1.symm.trans hkey⟩]
    exact hcached
  · intro hrecord
    obtain ⟨row, hrow, hkey, hcached⟩ := recordAt_eq_some hrecord
    exact ⟨⟨row, (List.mem_insertionSort _).mpr hrow, hcached⟩,
      (cachedRecord_eq_some hcached).1.trans hkey⟩

/-- What a load does: it succeeds exactly when every committed row decodes, and leaves a
cache that mirrors the collection. -/
structure Loads (options : Options κ τ) (c : Collection κ)
    (result : Except (Refusal κ) (CollectionCache κ τ)) : Prop where
  isOk_iff : (∃ cache, result = .ok cache) ↔
    ∀ row ∈ c.rows.rows, readable options row = .ok ()
  mirrors : ∀ cache, result = .ok cache → Mirrors options c cache

theorem loadFull_loads {options : Options κ τ} {localeCompare : κ → κ → Int} {c : Collection κ}
    (hplaced : Placed options c) : Loads options c (loadFull options localeCompare c) := by
  have hreadable : Refusals.all (readable options) (c.rows.rows.insertionSort rowBefore) = .ok () ↔
      ∀ row ∈ c.rows.rows, readable options row = .ok () := by
    rw [all_eq_ok]
    simp only [List.mem_insertionSort]
  unfold loadFull
  constructor
  · constructor
    · rintro ⟨cache, h⟩
      obtain ⟨_, hall, -⟩ := bind_eq_ok.mp h
      exact hreadable.mp hall
    · intro hall
      exact ⟨_, bind_eq_ok.mpr ⟨(), hreadable.mpr hall, rfl⟩⟩
  · intro cache h
    obtain ⟨_, hall, h⟩ := bind_eq_ok.mp h
    obtain rfl := Except.ok.inj h
    have harranged := @createCache_arranged _ _ _ localeCompare c.revision _
      (distinct_orders hplaced fun key => get_ofList key)
    exact ⟨rfl, hreadable.mp hall, fun key => get_ofList key, _, harranged⟩

/-- The collection that a cache was read from, followed by the present one. -/
structure Kept (options : Options κ τ) (c : Collection κ) (cache : CollectionCache κ τ)
    (old : Collection κ) : Prop where
  mirrors : Mirrors options old cache
  sound : Sound options old
  follows : Follows Row.rowRevision old.version c.version

/-- A record of the cache with its row's revision is the row's record: the row is the one the
cache was read from. -/
theorem Kept.current {options : Options κ τ} {c old : Collection κ} {cache : CollectionCache κ τ}
    (h : Kept options c cache old) (key : κ) : Current options c cache.records key := by
  intro held row hheld hrow hrevision
  obtain ⟨oldRow, hold, hkey, hcached⟩ := recordAt_eq_some ((h.mirrors.records key).symm.trans hheld)
  have hstamp : row.rowRevision ≤ old.revision := by
    rw [← hrevision, (cachedRecord_eq_some hcached).2.2.1]
    exact h.sound.stamped oldRow hold
  have hsame : old.rows.get? key = some row := h.follows.stamped key row hrow hstamp
  have heq : oldRow = row :=
    Option.some.inj ((Table.get?_eq_some.mpr ⟨hold, hkey⟩).symm.trans hsame)
  subst heq
  exact ⟨h.mirrors.readable oldRow hold, hcached⟩

/-- Between its own floor and revision, the log names every key that changed since. -/
theorem Kept.unnamed {options : Options κ τ} {c old : Collection κ} {cache : CollectionCache κ τ}
    (h : Kept options c cache old) (hsound : Sound options c)
    (hfloor : c.changeFloor ≤ cache.revision) {key : κ}
    (hkey : key ∉ changedKeys c cache.revision) : old.rows.get? key = c.rows.get? key := by
  have hfloor' : c.changeFloor ≤ old.revision := h.mirrors.revision_eq ▸ hfloor
  apply h.follows.same_of_unlogged hfloor'
  rintro revision hlater ⟨change, hchange, rfl, hnamed⟩
  apply hkey
  rw [mem_changedKeys]
  refine ⟨change, hchange, ?_, ?_, hnamed⟩
  · rw [h.mirrors.revision_eq]
    exact hlater
  · exact hsound.bounded.logged_le _ _ ⟨change, hchange, rfl, rfl⟩

/-- **The incremental read.**  A patched cache mirrors the collection. -/
theorem patched_mirrors {options : Options κ τ} (localeCompare : κ → κ → Int) {c old : Collection κ}
    {cache : CollectionCache κ τ} (h : Kept options c cache old) (hsound : Sound options c)
    (hfloor : c.changeFloor ≤ cache.revision) {patch : Patch κ τ}
    (hpatch : Patches options c (changedKeys c cache.revision) (cache.records, false) patch)
    (hreadable : ∀ row ∈ c.rows.rows, readable options row = .ok ()) :
    Mirrors options c (if patch.2 then createCache localeCompare c.revision patch.1
      else createCacheWithOrder c.revision patch.1 cache.orderedKeys) := by
  have hrecords : ∀ key, patch.1.get? key = recordAt options c key := by
    intro key
    rw [hpatch.get key]
    split_ifs with hkey
    · rfl
    · rw [h.mirrors.records key, recordAt, recordAt, h.unnamed hsound hfloor hkey]
  split_ifs with hchanged
  · exact ⟨rfl, hreadable, hrecords, _,
      createCache_arranged (distinct_orders hsound.placed hrecords)⟩
  · obtain ⟨-, horder⟩ := hpatch.order (Bool.not_eq_true _ ▸ hchanged)
    obtain ⟨entries, harranged⟩ := h.mirrors.arranged
    refine ⟨rfl, hreadable, hrecords, _, createCacheWithOrder_arranged harranged ?_⟩
    intro key record hrecord
    by_cases hkey : key ∈ changedKeys c cache.revision
    · obtain ⟨row, hrow, hcached⟩ := Option.bind_eq_some_iff.mp ((hrecords key).symm.trans hrecord)
      have hsame := horder key hkey
      rw [SameOrder, hrow] at hsame
      obtain ⟨held, hheld, heq⟩ := hsame
      exact ⟨held, hheld, heq.trans (cachedRecord_eq_some hcached).2.1.symm⟩
    · have hget := hpatch.get key
      rw [if_neg hkey] at hget
      exact ⟨record, hget.symm.trans hrecord, rfl⟩

/-- **Every load reads the committed collection**, from whatever cache it finds. -/
theorem loadReadonly_loads {options : Options κ τ} {localeCompare : κ → κ → Int} {c : Collection κ}
    {cache? : Option (CollectionCache κ τ)} (hsound : Sound options c)
    (hcache : ∀ cache, cache? = some cache → ∃ old, Kept options c cache old) :
    Loads options c (loadReadonly options localeCompare cache? c) := by
  unfold loadReadonly
  cases cache? with
  | none => exact loadFull_loads hsound.placed
  | some cache =>
    obtain ⟨old, hkept⟩ := hcache cache rfl
    simp only
    split_ifs with hrevision hstale hkeys
    · -- the cache is of this revision
      have hrows : old.rows.get? = c.rows.get? := by
        apply hkept.follows.same_of_revision_eq hsound.bounded
        exact hkept.mirrors.revision_eq.symm.trans hrevision
      have hmem : ∀ row ∈ c.rows.rows, row ∈ old.rows.rows := by
        intro row hrow
        have hget := Table.get?_eq_some.mpr ⟨hrow, rfl⟩
        rw [← hrows] at hget
        exact (Table.get?_eq_some.mp hget).1
      have hmirrors : Mirrors options c cache := by
        refine ⟨hrevision, ?_, ?_, hkept.mirrors.arranged⟩
        · intro row hrow
          exact hkept.mirrors.readable row (hmem row hrow)
        · intro key
          rw [hkept.mirrors.records key, recordAt, recordAt, hrows]
      refine ⟨iff_of_true ⟨cache, rfl⟩ hmirrors.readable, ?_⟩
      intro other hother
      exact Except.ok.inj hother ▸ hmirrors
    · exact loadFull_loads hsound.placed
    · exact loadFull_loads hsound.placed
    · have hfloor : c.changeFloor ≤ cache.revision := by
        simp only [not_or, not_lt] at hstale
        exact hstale.2
      obtain ⟨hok, hpatches⟩ := @run_patchRecord _ _ _ options c (cache.records, false) _
        (nodup_changedKeys c cache.revision) (fun key _ => hkept.current key)
      -- an unnamed row is one that the cache decoded
      have hreadable : (∀ key ∈ changedKeys c cache.revision, ∀ row, c.rows.get? key = some row →
          readable options row = .ok ()) ↔ ∀ row ∈ c.rows.rows, readable options row = .ok () := by
        constructor
        · intro hnamed row hrow
          have hget := Table.get?_eq_some.mpr ⟨hrow, rfl⟩
          by_cases hkey : row.rowKey ∈ changedKeys c cache.revision
          · exact hnamed row.rowKey hkey row hget
          · rw [← hkept.unnamed hsound hfloor hkey] at hget
            exact hkept.mirrors.readable row (Table.get?_eq_some.mp hget).1
        · intro hall key _ row hget
          exact hall row (Table.get?_eq_some.mp hget).1
      rw [hreadable] at hok
      constructor
      · rw [← hok]
        constructor
        · rintro ⟨out, hout⟩
          obtain ⟨patch, hpatch, -⟩ := bind_eq_ok.mp hout
          exact ⟨patch, hpatch⟩
        · rintro ⟨patch, hpatch⟩
          refine ⟨if patch.2 then createCache localeCompare c.revision patch.1
            else createCacheWithOrder c.revision patch.1 cache.orderedKeys,
            bind_eq_ok.mpr ⟨patch, hpatch, ?_⟩⟩
          split_ifs <;> rfl
      · intro out hout
        obtain ⟨patch, hpatch, hout⟩ := bind_eq_ok.mp hout
        have hmirrors := patched_mirrors localeCompare hkept hsound hfloor
          (hpatches patch hpatch) (hok.mp ⟨patch, hpatch⟩)
        have heq : (if patch.2 then createCache localeCompare c.revision patch.1
            else createCacheWithOrder c.revision patch.1 cache.orderedKeys) = out := by
          split_ifs at hout ⊢ <;> exact Except.ok.inj hout
        exact heq ▸ hmirrors

end Delegatus.StateStore
