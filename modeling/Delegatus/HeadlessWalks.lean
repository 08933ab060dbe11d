import Delegatus.HeadlessCaches

/-!
# The headless rounds are those of the full query

`Cached` relates a cache to the tables: a flow that is not in the log since the cached revision has the
rounds of the tables, less the recorded ones, and each recorded round is among the dead ones.

`headless_rounds_eq_query` follows for every run in which the comparator tells the flows of a read apart
and orders tied ones as the query does.
-/

namespace Delegatus.History

open RowGroups OrderedLists Runs

variable {localeCompare : String → String → Int} {sizes : Sizes} {db : Db} {heap : List HeadlessRow}
  {cache : HeadlessCache} {pruned : List (String × ℕ)}

/-! ### The cache and the tables -/

/-- A flow may have changed since the cached revision. -/
def Stale (db : Db) (revision : ℕ) (flowKey : String) : Prop :=
  revision + 4096 < db.revisions.flowRevision ∨
    ∃ change ∈ db.revisions.flowChanges, revision < change.1 ∧ change.2 = flowKey

variable (localeCompare sizes) in
structure Cached (db : Db) (heap : List HeadlessRow) (cache : HeadlessCache) (pruned : List (String × ℕ))
    (dead : Multiset RowObject) : Prop where
  holds : CacheHolds localeCompare sizes heap cache dead
  bytes : cache.bytes = cache.flowBytes + cache.deadBytes
  revision : cache.revision ≤ db.revisions.flowRevision
  synced : ∀ row : HeadlessRow, ¬Stale db cache.revision row.rowKey →
    ((∃ object ∈ cache.rows, object.row = row) ↔ row ∈ heldRounds db ∧ roundKey row ∉ pruned)
  found : ∀ round ∈ pruned, ∃ object ∈ dead, roundKey object.row = round

/-- The log has no revision that is yet to come. -/
def Logged (db : Db) : Prop := ∀ change ∈ db.revisions.flowChanges, change.1 ≤ db.revisions.flowRevision

theorem Logged.step {next : Db} (h : Logged db) (hstep : RoundStep db next) : Logged next := by
  cases hstep with
  | kept revision log rounds =>
    unfold Logged
    rw [revision, log]
    exact h
  | changed flowKey revision log rounds =>
    unfold Logged
    rw [revision, log]
    intro change hchange
    rcases List.mem_append.mp (List.mem_filter.mp hchange).1 with hold | hnew
    · exact (h change hold).trans (Nat.le_succ _)
    · rw [List.mem_singleton.mp hnew]

theorem Cached.tables {next : Db} {dead : Multiset RowObject} (h : Cached localeCompare sizes db heap cache pruned dead)
    (hstep : RoundStep db next) : Cached localeCompare sizes next heap cache pruned dead := by
  refine ⟨h.holds, h.bytes, ?_, fun row hfresh => ?_, h.found⟩
  · have hle := h.revision
    cases hstep with
    | kept revision log rounds => exact revision ▸ hle
    | changed flowKey revision log rounds => omega
  · cases hstep with
    | kept revision log rounds =>
      have hsame : ¬Stale db cache.revision row.rowKey := by
        unfold Stale at hfresh ⊢
        rw [revision, log] at hfresh
        exact hfresh
      rw [rounds row]
      exact h.synced row hsame
    | changed flowKey revision log rounds =>
      unfold Stale at hfresh
      rw [revision, log, not_or] at hfresh
      obtain ⟨hnear, hunlogged⟩ := hfresh
      have hle := h.revision
      have hkey : row.rowKey ≠ flowKey := by
        rintro rfl
        refine hunlogged ⟨(db.revisions.flowRevision + 1, row.rowKey), List.mem_filter.mpr ⟨?_, ?_⟩, ?_, rfl⟩
        · exact List.mem_append_right _ (List.mem_singleton_self _)
        · rw [decide_eq_true_eq]
          omega
        · show cache.revision < db.revisions.flowRevision + 1
          omega
      have hsame : ¬Stale db cache.revision row.rowKey := by
        rintro (hfar | ⟨change, hchange, hless, hflow⟩)
        · omega
        · refine hunlogged ⟨change, List.mem_filter.mpr ⟨List.mem_append_left _ hchange, ?_⟩, hless, hflow⟩
          rw [decide_eq_true_eq]
          omega
      rw [rounds row hkey]
      exact h.synced row hsame

/-! ### Prunes -/

theorem movedRows_known (shared : Shared) (rounds : List ℕ) : Known shared.heap (movedRows shared rounds) := by
  intro object hobject
  obtain ⟨id, -, hsome⟩ := List.mem_filterMap.mp (List.mem_dedup.mp hobject)
  obtain ⟨row, hrow, rfl⟩ := Option.map_eq_some_iff.mp hsome
  exact hrow

/-- Two objects of the walk with one row are one object. -/
theorem WalkHolds.row_inj (hlocale : LocaleOrder localeCompare) (h : WalkHolds localeCompare sizes cache)
    {a b : RowObject} (ha : a ∈ cache.rows) (hb : b ∈ cache.rows) (hrow : a.row = b.row) : a = b := by
  have hself : ∀ row : HeadlessRow, ¬rowOrder localeCompare row row < 0 := fun row hless =>
    (comparator_rowOrder hlocale).asymm hless hless
  have hpairs := h.order
  unfold InOrder objectOrder at hpairs
  rw [List.pairwise_iff_getElem] at hpairs
  obtain ⟨i, hi, rfl⟩ := List.mem_iff_getElem.mp ha
  obtain ⟨j, hj, rfl⟩ := List.mem_iff_getElem.mp hb
  rcases Nat.lt_trichotomy i j with hless | hsame | hmore
  · have hcompare := hpairs i j hi hj hless
    rw [hrow] at hcompare
    exact absurd hcompare (hself _)
  · subst hsame
    rfl
  · have hcompare := hpairs j i hj hi hmore
    rw [hrow] at hcompare
    exact absurd hcompare (hself _)

theorem nodup_roundKey {rows : List HeadlessRow} (h : (rows.map roundKey).Nodup) {a b : HeadlessRow} (ha : a ∈ rows)
    (hb : b ∈ rows) (hkey : roundKey a = roundKey b) : a = b :=
  List.inj_on_of_nodup_map h ha hb hkey

theorem Cached.prune (hlocale : LocaleOrder localeCompare) (hnodup : ((heldRounds db).map roundKey).Nodup)
    {dead : Multiset RowObject} (h : Cached localeCompare sizes db heap cache pruned dead) {objects : List RowObject}
    (hobjects : Known heap objects) :
    let next := objects.foldl (pruneRow localeCompare sizes) cache
    Cached localeCompare sizes db heap { next with bytes := next.flowBytes + next.deadBytes }
      (pruned ++ (objects.filter (· ∈ cache.rows)).map fun object => roundKey object.row)
      ((objects : Multiset RowObject) + dead) := by
  intro next
  obtain ⟨hrows, hholds⟩ := h.holds.pruneRows hlocale hobjects
  have hrevision : next.revision = cache.revision :=
    foldl_keeps HeadlessCache.revision (pruneRow localeCompare sizes) (fun _ _ => rfl) objects cache
  have hmem : ∀ object, object ∈ next.rows ↔ object ∈ cache.rows ∧ object ∉ objects := by
    intro object
    rw [hrows]
    exact (h.holds.walk.nodup hlocale).mem_sdiff_iff
  refine ⟨⟨hholds.walk.congr rfl, hholds.known, hholds.byFlow, hholds.dead.congr rfl⟩, rfl, ?_, fun row hfresh => ?_, ?_⟩
  · exact hrevision.trans_le h.revision
  · have hold := h.synced row (hrevision ▸ hfresh)
    show (∃ object ∈ next.rows, object.row = row) ↔ _
    rw [List.mem_append, not_or]
    constructor
    · rintro ⟨object, hobject, rfl⟩
      obtain ⟨hin, hout⟩ := (hmem object).mp hobject
      obtain ⟨hheld, hkept⟩ := hold.mp ⟨object, hin, rfl⟩
      refine ⟨hheld, hkept, fun hmoved => ?_⟩
      obtain ⟨other, hother, hkey⟩ := List.mem_map.mp hmoved
      obtain ⟨hotherMoved, hotherIn⟩ := List.mem_filter.mp hother
      rw [decide_eq_true_eq] at hotherIn
      have hotherKey : other.row.rowKey = object.row.rowKey := congrArg Prod.fst hkey
      have hotherHeld := ((h.synced other.row (by
        rw [hotherKey]
        exact hrevision ▸ hfresh)).mp ⟨other, hotherIn, rfl⟩).1
      have hrow := nodup_roundKey hnodup hotherHeld hheld hkey
      obtain rfl := h.holds.walk.row_inj hlocale hotherIn hin hrow
      exact hout hotherMoved
    · rintro ⟨hheld, hkept, hunmoved⟩
      obtain ⟨object, hin, rfl⟩ := hold.mpr ⟨hheld, hkept⟩
      refine ⟨object, (hmem object).mpr ⟨hin, fun hmoved => hunmoved ?_⟩, rfl⟩
      exact List.mem_map.mpr ⟨object, List.mem_filter.mpr ⟨hmoved, decide_eq_true hin⟩, rfl⟩
  · intro round hround
    rcases List.mem_append.mp hround with hold | hnew
    · obtain ⟨object, hobject, hkey⟩ := h.found round hold
      exact ⟨object, Multiset.mem_add.mpr (Or.inr hobject), hkey⟩
    · obtain ⟨object, hobject, hkey⟩ := List.mem_map.mp hnew
      exact ⟨object, Multiset.mem_add.mpr (Or.inl (Multiset.mem_coe.mpr (List.mem_filter.mp hobject).1)), hkey⟩

/-! ### Reads -/

/-- The flows of a read are told apart by the comparator, and tied ones compare as the query orders them. -/
structure Orderly (localeCompare : String → String → Int) (db : Db) (shared : Shared) : Prop where
  apart : ∀ a b : HeadlessRow, (a ∈ heldRounds db ∨ ∃ cache, shared.cache = some cache ∧
    ∃ object ∈ cache.rows, object.row = a) → b ∈ heldRounds db →
      localeCompare a.rowKey b.rowKey = 0 → a.rowKey = b.rowKey
  ties : TiesAgree localeCompare db

theorem exists_allocated (db : Db) (heap : List HeadlessRow) (flowKey : String) (row : HeadlessRow) :
    (∃ object ∈ allocate heap (flowRounds db flowKey), object.row = row) ↔
      row ∈ heldRounds db ∧ row.rowKey = flowKey := by
  have hmem : row ∈ (allocate heap (flowRounds db flowKey)).map RowObject.row ↔ row ∈ flowRounds db flowKey := by
    rw [allocate_rows]
  rw [← mem_flowRounds, ← hmem, List.mem_map]

/-- **The changed flows, one after the other.** -/
theorem CacheHolds.changeFlows (hlocale : LocaleOrder localeCompare) (hnodup : ((heldRounds db).map roundKey).Nodup)
    (happart : ∀ a ∈ heldRounds db, ∀ b ∈ heldRounds db, localeCompare a.rowKey b.rowKey = 0 → a.rowKey = b.rowKey)
    (flowKeys : List String) {dead : Multiset RowObject} (h : CacheHolds localeCompare sizes heap cache dead)
    (hapart : ∀ object ∈ cache.rows, ∀ row ∈ heldRounds db,
      localeCompare object.row.rowKey row.rowKey = 0 → object.row.rowKey = row.rowKey) :
    let next := flowKeys.foldl (History.changeFlow localeCompare sizes db) (heap, cache)
    (∀ row : HeadlessRow, (∃ object ∈ next.2.rows, object.row = row) ↔
        if row.rowKey ∈ flowKeys then row ∈ heldRounds db else ∃ object ∈ cache.rows, object.row = row) ∧
      ∃ left, CacheHolds localeCompare sizes next.1 next.2 left ∧
        ∀ object ∈ dead, object.row.rowKey ∉ flowKeys → object ∈ left := by
  induction flowKeys generalizing heap cache dead with
  | nil => exact ⟨fun row => by simp, dead, h, fun object hobject _ => hobject⟩
  | cons flowKey rest ih =>
    obtain ⟨hmem, hholds⟩ := h.changeFlow hlocale flowKey hapart hnodup
    have hrows : ∀ row : HeadlessRow,
        (∃ object ∈ (History.changeFlow localeCompare sizes db (heap, cache) flowKey).2.rows, object.row = row) ↔
          if row.rowKey = flowKey then row ∈ heldRounds db else ∃ object ∈ cache.rows, object.row = row := by
      intro row
      have hnew := exists_allocated db heap flowKey row
      by_cases hkey : row.rowKey = flowKey
      · rw [if_pos hkey]
        constructor
        · rintro ⟨object, hobject, rfl⟩
          rcases (hmem object).mp hobject with ⟨-, hne⟩ | hallocated
          · exact absurd hkey hne
          · exact (hnew.mp ⟨object, hallocated, rfl⟩).1
        · intro hheld
          obtain ⟨object, hobject, hrow⟩ := hnew.mpr ⟨hheld, hkey⟩
          exact ⟨object, (hmem object).mpr (Or.inr hobject), hrow⟩
      · rw [if_neg hkey]
        constructor
        · rintro ⟨object, hobject, rfl⟩
          rcases (hmem object).mp hobject with ⟨hold, -⟩ | hallocated
          · exact ⟨object, hold, rfl⟩
          · exact absurd (hnew.mp ⟨object, hallocated, rfl⟩).2 hkey
        · rintro ⟨object, hobject, rfl⟩
          exact ⟨object, (hmem object).mpr (Or.inl ⟨hobject, hkey⟩), rfl⟩
    obtain ⟨hall, left, hleft, hkept⟩ := @ih (heap ++ flowRounds db flowKey) _ _ hholds (by
      intro object hobject row hrow
      rcases (hmem object).mp hobject with ⟨hold, -⟩ | hallocated
      · exact hapart object hold row hrow
      · exact happart object.row (mem_flow_of_allocate hallocated).1 row hrow)
    refine ⟨fun row => ?_, left, hleft, fun object hobject hout => ?_⟩
    · rw [List.foldl_cons]
      refine (hall row).trans ?_
      by_cases hrest : row.rowKey ∈ rest
      · rw [if_pos hrest, if_pos (List.mem_cons_of_mem _ hrest)]
      · rw [if_neg hrest]
        refine (hrows row).trans ?_
        by_cases hkey : row.rowKey = flowKey
        · rw [if_pos hkey, if_pos (List.mem_cons.mpr (Or.inl hkey))]
        · rw [if_neg hkey, if_neg (by simp [hkey, hrest])]
    · apply hkept object
      · rw [Multiset.mem_filter]
        exact ⟨hobject, fun hsame => hout (List.mem_cons.mpr (Or.inl (Option.some.inj hsame)))⟩
      · exact fun hin => hout (List.mem_cons_of_mem _ hin)

/-- A cache that a read left: it is at the revision of the tables, and the flows are its answer. -/
structure Taken (localeCompare : String → String → Int) (sizes : Sizes) (db : Db) (shared : Shared)
    (flows : List RowObject) (pruned : List (String × ℕ)) (cache : HeadlessCache) (dead : Multiset RowObject) :
    Prop where
  cached : Cached localeCompare sizes db shared.heap cache pruned dead
  upToDate : cache.revision = db.revisions.flowRevision
  flows : flows = cache.rows
  kept : ∀ held, shared.cache = some held → held = cache

theorem bounded_eq {held : HeadlessCache} (h : bounded cache = some held) : held = cache := by
  unfold bounded at h
  split at h
  · exact (Option.some.inj h).symm
  · contradiction

theorem mem_changedFlows {revision : ℕ} {flowKey : String} : flowKey ∈ changedFlows db revision ↔
    ∃ change ∈ db.revisions.flowChanges, revision < change.1 ∧ change.2 = flowKey := by
  unfold changedFlows
  rw [List.mem_dedup, List.mem_map]
  constructor
  · rintro ⟨change, hchange, hkey⟩
    obtain ⟨hin, hless⟩ := List.mem_filter.mp hchange
    exact ⟨change, hin, of_decide_eq_true hless, hkey⟩
  · rintro ⟨change, hin, hless, hkey⟩
    exact ⟨change, List.mem_filter.mpr ⟨hin, decide_eq_true hless⟩, hkey⟩

variable (sizes) in
theorem loaded (hlocale : LocaleOrder localeCompare) (hnodup : ((heldRounds db).map roundKey).Nodup)
    {shared : Shared} (horderly : Orderly localeCompare db shared) :
    ∃ cache dead, Taken localeCompare sizes db (loadFlows sizes db shared).1 (loadFlows sizes db shared).2 []
      cache dead := by
  have hholds := cacheHolds_load sizes hlocale horderly.ties hnodup shared.heap shared.arrays
  have hmem : ∀ row, row ∈ (allocate shared.heap (fullRounds db)).map RowObject.row ↔ row ∈ heldRounds db := by
    intro row
    rw [allocate_rows, mem_fullRounds]
  have hbytes : (loadCache sizes db shared.heap shared.arrays).bytes =
      (loadCache sizes db shared.heap shared.arrays).flowBytes +
        (loadCache sizes db shared.heap shared.arrays).deadBytes := by
    unfold loadCache
    exact (Int.add_zero _).symm
  have hrows : (loadCache sizes db shared.heap shared.arrays).rows = allocate shared.heap (fullRounds db) := rfl
  have hrevision : (loadCache sizes db shared.heap shared.arrays).revision = db.revisions.flowRevision := rfl
  have hcache : (loadFlows sizes db shared).1.cache = bounded (loadCache sizes db shared.heap shared.arrays) := by
    simp only [loadFlows]
  refine ⟨loadCache sizes db shared.heap shared.arrays, 0, ⟨⟨hholds, hbytes, hrevision.le, fun row _ => ?_,
    fun round hround => nomatch hround⟩, hrevision, hrows, fun held hheld => ?_⟩⟩
  · rw [hrows, ← List.mem_map, hmem row]
    simp
  · rw [hcache] at hheld
    exact bounded_eq hheld

/-- **A read** takes the tables in. -/
theorem read_taken (hlocale : LocaleOrder localeCompare) (hnodup : ((heldRounds db).map roundKey).Nodup)
    {shared : Shared} (horderly : Orderly localeCompare db shared)
    (h : ∀ cache, shared.cache = some cache → ∃ dead, Cached localeCompare sizes db shared.heap cache pruned dead) :
    ∃ cache dead, Taken localeCompare sizes db (historyHeadlessFlows localeCompare sizes db shared).1
      (historyHeadlessFlows localeCompare sizes db shared).2 (prunedAfterRead db shared.cache pruned) cache dead := by
  have hload := loaded sizes hlocale hnodup horderly
  unfold historyHeadlessFlows prunedAfterRead
  cases hcache : shared.cache with
  | none => exact hload
  | some cache =>
    obtain ⟨dead, hcached⟩ := h cache hcache
    dsimp only
    by_cases hnow : cache.revision = db.revisions.flowRevision
    · rw [if_neg (not_not.mpr hnow), if_neg (not_not.mpr hnow)]
      refine ⟨cache, dead, hcached, hnow, hcached.holds.walk.flows, fun held hheld => ?_⟩
      exact Option.some.inj (hheld.symm.trans hcache)
    · rw [if_pos hnow, if_pos hnow]
      cases hbehind : behind db cache with
      | true => exact hload
      | false =>
        rw [if_neg Bool.false_ne_true, if_neg Bool.false_ne_true]
        have hnear : ¬cache.revision + 4096 < db.revisions.flowRevision := by
          intro hfar
          unfold behind at hbehind
          rw [decide_eq_true hfar, Bool.true_or] at hbehind
          contradiction
        obtain ⟨hrows, left, hleft, hdead⟩ := hcached.holds.changeFlows hlocale hnodup
          (fun a ha b hb => horderly.apart a b (Or.inl ha) hb) (changedFlows db cache.revision)
          fun object hobject row hrow =>
            horderly.apart object.row row (Or.inr ⟨cache, hcache, object, hobject, rfl⟩) hrow
        dsimp only
        generalize (changedFlows db cache.revision).foldl (changeFlow localeCompare sizes db)
          (shared.heap, cache) = next at *
        refine ⟨{ next.2 with
          revision := db.revisions.flowRevision
          bytes := next.2.flowBytes + next.2.deadBytes }, left,
          ⟨⟨hleft.walk.congr rfl, hleft.known, hleft.byFlow, hleft.dead.congr rfl⟩, rfl, le_refl _,
            fun row _ => ?_, fun round hround => ?_⟩, rfl, hleft.walk.flows, fun held hheld => bounded_eq hheld⟩
        · refine (hrows row).trans ?_
          rw [List.mem_filter]
          by_cases hchanged : row.rowKey ∈ changedFlows db cache.revision
          · rw [if_pos hchanged]
            simp [roundKey, hchanged]
          · have hfresh : ¬Stale db cache.revision row.rowKey := by
              rintro (hfar | hlog)
              · exact hnear hfar
              · exact hchanged (mem_changedFlows.mpr hlog)
            rw [if_neg hchanged]
            refine (hcached.synced row hfresh).trans ?_
            simp [roundKey, hchanged]
        · obtain ⟨hin, hkept⟩ := List.mem_filter.mp hround
          obtain ⟨object, hobject, rfl⟩ := hcached.found round hin
          exact ⟨object, hdead object hobject (of_decide_eq_true hkept), rfl⟩

/-- The rounds of a cache at the revision of the tables. -/
theorem Cached.rows_eq (hlocale : LocaleOrder localeCompare) (hnodup : ((heldRounds db).map roundKey).Nodup)
    (hlogged : Logged db) (hties : TiesAgree localeCompare db) {dead : Multiset RowObject}
    (h : Cached localeCompare sizes db heap cache pruned dead) (hnow : cache.revision = db.revisions.flowRevision) :
    cache.rows.map RowObject.row = (fullRounds db).filter fun row => roundKey row ∉ pruned := by
  have hfresh : ∀ flowKey, ¬Stale db cache.revision flowKey := by
    rintro flowKey (hfar | ⟨change, hchange, hless, -⟩)
    · omega
    · have hle := hlogged change hchange
      omega
  have hleft : InOrder (rowOrder localeCompare) (cache.rows.map RowObject.row) :=
    List.pairwise_map.mpr h.holds.walk.order
  have hright : InOrder (rowOrder localeCompare) ((fullRounds db).filter fun row => roundKey row ∉ pruned) :=
    (fullRounds_inOrder hlocale hties hnodup).sublist List.filter_sublist
  apply hleft.eq_of_mem_iff (comparator_rowOrder hlocale) hright
  intro row
  rw [List.mem_map, List.mem_filter, mem_fullRounds, decide_eq_true_eq]
  exact h.synced row (hfresh row.rowKey)

/-! ### Every run -/

variable (dateParse : String → Option Int) {ρ : Type*} [DecidableEq ρ]

variable (localeCompare) in
/-- A call is orderly unless it is a read whose flows the comparator confuses. -/
def OrderlyCall (s : Walks ρ) : WalkEvent ρ → Prop
  | .read => Orderly localeCompare s.state.db s.shared
  | _ => True

variable (localeCompare sizes) in
structure WalksHold (s : Walks ρ) : Prop where
  refines : Refines dateParse s.state.db
  logged : Logged s.state.db
  cached : ∀ cache, s.shared.cache = some cache →
    ∃ dead, Cached localeCompare sizes s.state.db s.shared.heap cache s.pruned dead

theorem WalksHold.step (hlocale : LocaleOrder localeCompare) {s : Walks ρ}
    (h : WalksHold localeCompare sizes dateParse s) {event : WalkEvent ρ}
    (horderly : OrderlyCall localeCompare s event) :
    WalksHold localeCompare sizes dateParse (walkStep localeCompare sizes dateParse s event).1 := by
  have hnodup := heldRounds_nodup dateParse h.refines
  cases event with
  | tables event =>
    have hstep := roundStep dateParse h.refines event
    refine ⟨h.refines.step dateParse event, h.logged.step hstep, fun cache hcache => ?_⟩
    obtain ⟨dead, hcached⟩ := h.cached cache hcache
    exact ⟨dead, hcached.tables hstep⟩
  | read =>
    refine ⟨h.refines, h.logged, fun held hheld => ?_⟩
    obtain ⟨cache, dead, htaken⟩ := read_taken hlocale hnodup horderly h.cached
    obtain rfl := htaken.kept held hheld
    exact ⟨dead, htaken.cached⟩
  | prune array rounds =>
    refine ⟨h.refines, h.logged, fun held hheld => ?_⟩
    simp only [walkStep, pruneHistoryHeadlessRounds, prunedAfterPrune] at hheld ⊢
    cases hcache : s.shared.cache with
    | none =>
      rw [hcache] at hheld
      exact absurd (hcache.symm.trans hheld) (fun hnone => nomatch hnone)
    | some cache =>
      obtain ⟨dead, hcached⟩ := h.cached cache hcache
      rw [hcache] at hheld
      dsimp only at hheld ⊢
      by_cases harray : cache.array ≠ array
      · rw [if_pos (Or.inl harray)] at hheld ⊢
        rw [if_pos harray]
        obtain rfl := Option.some.inj (hcache.symm.trans hheld)
        exact ⟨dead, hcached⟩
      · rw [if_neg harray]
        by_cases hempty : (movedRows s.shared rounds).isEmpty = true
        · rw [if_pos (Or.inr hempty)] at hheld ⊢
          obtain rfl := Option.some.inj (hcache.symm.trans hheld)
          rw [List.isEmpty_iff.mp hempty]
          refine ⟨dead, ?_⟩
          simpa using hcached
        · rw [if_neg (not_or.mpr ⟨harray, hempty⟩)] at hheld ⊢
          have hnext := hcached.prune hlocale hnodup (movedRows_known s.shared rounds)
          obtain rfl := bounded_eq hheld
          exact ⟨_, hnext⟩
  | evict => exact ⟨h.refines, h.logged, fun cache hcache => nomatch hcache⟩

/-- No reader has asked for the headless rounds. -/
def Walks.initial (stateRows : Entries Ref StoredRow) : Walks ρ :=
  ⟨History.initial stateRows, ⟨[], 0, none⟩, []⟩

variable (sizes) in
theorem walksHold_after (hlocale : LocaleOrder localeCompare) (stateRows : Entries Ref StoredRow)
    {events : List (WalkEvent ρ)} (h : EveryCall (walkStep localeCompare sizes dateParse) (OrderlyCall localeCompare)
      (Walks.initial stateRows) events) : WalksHold localeCompare sizes dateParse
        (after (walkStep localeCompare sizes dateParse) (Walks.initial stateRows) events) :=
  after_of_everyCall (P := WalksHold localeCompare sizes dateParse) (fun _ _ hs hcall => hs.step dateParse hlocale hcall)
    ⟨refines_initial dateParse stateRows, fun _ hchange => absurd hchange List.not_mem_nil,
      fun cache hcache => absurd (show none = some cache from hcache) nofun⟩ h

/-- The dead rounds of a cache. -/
def deadRounds (cache : HeadlessCache) : List RowObject := cache.deadByFlow.rows.flatMap Prod.snd

theorem DeadHolds.total {dead : Multiset RowObject} (h : DeadHolds sizes cache dead) :
    cache.deadBytes = ((deadRounds cache).map fun object => sizes.row object.row + 8).sum := by
  have hall := h.byFlow.all fun object _ => ⟨object.row.rowKey, rfl⟩
  rw [h.deadBytes, ← hall]
  rfl

/-- A dead round is found under its path and its conversation. -/
theorem DeadHolds.owners {dead : Multiset RowObject} (h : DeadHolds sizes cache dead) {shared : Shared}
    (hcache : shared.cache = some cache) {object : RowObject} (hobject : object ∈ dead) :
    (∀ path, path ≠ "" → object.row.reviewerPath = some path → ∀ conversationIds,
      object ∈ historyHeadlessDeadRounds shared cache.array (some path) conversationIds) ∧
    ∀ conversationId, conversationId ≠ "" → object.row.reviewerConversationId = some conversationId →
      ∀ path conversationIds, conversationId ∈ conversationIds →
        object ∈ historyHeadlessDeadRounds shared cache.array path conversationIds := by
  unfold historyHeadlessDeadRounds
  rw [hcache]
  dsimp only
  constructor
  · intro path hpath howner conversationIds
    rw [if_neg (not_not.mpr rfl), List.mem_dedup, List.mem_append]
    have htruthy : truthy (some path) = some path := by simp [truthy, hpath]
    rw [htruthy, Option.elim_some]
    exact Or.inl (h.byPath.mem_iff.mpr ⟨hobject, by rw [howner, htruthy]⟩)
  · intro conversationId hid howner path conversationIds hmem
    rw [if_neg (not_not.mpr rfl), List.mem_dedup, List.mem_append, List.mem_flatMap]
    have htruthy : truthy (some conversationId) = some conversationId := by simp [truthy, hid]
    exact Or.inr ⟨conversationId, hmem, h.byConversation.mem_iff.mpr ⟨hobject, by rw [howner, htruthy]⟩⟩

/-- **The headless rounds are those of the full query**, in its order, less the pruned ones: those of the
answer of a read, and those that stay cached while the tables stay at the revision of the cache.  The
pruned ones are found under their path and conversation, and the bytes are those of what is held. -/
theorem headless_rounds_eq_query (hlocale : LocaleOrder localeCompare) (stateRows : Entries Ref StoredRow)
    {events : List (WalkEvent ρ)} (h : EveryCall (walkStep localeCompare sizes dateParse) (OrderlyCall localeCompare)
      (Walks.initial stateRows) events) :
    let s := after (walkStep localeCompare sizes dateParse) (Walks.initial stateRows) events
    let read := walkStep localeCompare sizes dateParse s .read
    (Orderly localeCompare s.state.db s.shared → ∃ flows, read.2 = some flows ∧
      flows.map RowObject.row = (fullRounds s.state.db).filter fun row => roundKey row ∉ read.1.pruned) ∧
    ∀ cache, s.shared.cache = some cache →
      (Orderly localeCompare s.state.db s.shared → cache.revision = s.state.db.revisions.flowRevision →
        cache.flows.map RowObject.row = (fullRounds s.state.db).filter fun row => roundKey row ∉ s.pruned) ∧
      (∀ round ∈ s.pruned, ∃ object, roundKey object.row = round ∧
        (∀ path, path ≠ "" → object.row.reviewerPath = some path → ∀ conversationIds,
          object ∈ historyHeadlessDeadRounds s.shared cache.array (some path) conversationIds) ∧
        ∀ conversationId, conversationId ≠ "" → object.row.reviewerConversationId = some conversationId →
          ∀ path conversationIds, conversationId ∈ conversationIds →
            object ∈ historyHeadlessDeadRounds s.shared cache.array path conversationIds) ∧
      cache.bytes = 2 + ((cache.flows.map fun object => sizes.view object.row + 8).sum : ℕ) +
        ((deadRounds cache).map fun object => sizes.row object.row + 8).sum := by
  intro s read
  have hholds := walksHold_after sizes dateParse hlocale stateRows h
  have hnodup := heldRounds_nodup dateParse hholds.refines
  constructor
  · intro horderly
    obtain ⟨cache, dead, htaken⟩ := read_taken hlocale hnodup horderly hholds.cached
    have hrows := htaken.cached.rows_eq hlocale hnodup hholds.logged horderly.ties htaken.upToDate
    exact ⟨_, rfl, (congrArg (List.map RowObject.row) htaken.flows).trans hrows⟩
  · intro cache hcache
    obtain ⟨dead, hcached⟩ := hholds.cached cache hcache
    refine ⟨fun horderly hnow => ?_, fun round hround => ?_, ?_⟩
    · rw [hcached.holds.walk.flows]
      exact hcached.rows_eq hlocale hnodup hholds.logged horderly.ties hnow
    · obtain ⟨object, hobject, hkey⟩ := hcached.found round hround
      exact ⟨object, hkey, hcached.holds.dead.owners hcache hobject⟩
    · rw [hcached.bytes, hcached.holds.walk.flowBytes, hcached.holds.dead.total, hcached.holds.walk.flows]
      unfold viewTotal
      omega

/-! ### A round that a reload brings back -/

/-- The comparison of code points. -/
def comparePoints (a b : String) : Int := if a < b then -1 else if a = b then 0 else 1

theorem comparePoints_zero {a b : String} (h : comparePoints a b = 0) : a = b := by
  unfold comparePoints at h
  split at h
  · omega
  · split at h
    · assumption
    · omega

theorem localeOrder_comparePoints : LocaleOrder comparePoints where
  antisymm a b := by
    rcases lt_trichotomy a b with hless | rfl | hgreater
    · simp [comparePoints, hless, hless.not_gt, hless.ne']
    · simp [comparePoints]
    · simp [comparePoints, hgreater, hgreater.not_gt, hgreater.ne']
  trans a b c hab hbc := by
    have hle : ∀ x y : String, comparePoints x y ≤ 0 ↔ x ≤ y := by
      intro x y
      rcases lt_trichotomy x y with hless | rfl | hgreater
      · simp [comparePoints, hless, hless.le]
      · simp [comparePoints]
      · simp [comparePoints, hgreater.not_gt, hgreater.ne', hgreater.not_ge]
    rw [hle] at hab hbc ⊢
    exact hab.trans hbc

theorem orderly_comparePoints (db : Db) (shared : Shared) : Orderly comparePoints db shared where
  apart _ _ _ _ hsame := comparePoints_zero hsame
  ties a _ b _ _ hless := by
    unfold comparePoints
    rw [if_pos hless]
    decide

/-- A flow whose first round has a headless reviewer. -/
def reviewedFlow : StoredRow := ⟨0, .flow ⟨"p", none, some "headless", [⟨some "path", none, some 1, none⟩]⟩⟩

/-- A flow without rounds, at a place in the order. -/
def plainFlow (order : ℕ) : StoredRow := ⟨order, .flow ⟨"p", none, none, []⟩⟩

/-- Both flows are projected and read, and the round of the first one is pruned. -/
def prunedRun : List (WalkEvent Unit) :=
  [.tables (.insert ⟨.flows, "a"⟩ reviewedFlow), .tables (.insert ⟨.flows, "b"⟩ (plainFlow 0)),
    .tables (.capture () [⟨.flows, "a"⟩, ⟨.flows, "b"⟩]), .tables (.project ()), .tables (.project ()),
    .read, .prune 0 [0]]

theorem headless_rounds_after_prune :
    let s := after (walkStep comparePoints ⟨fun _ => 100, fun _ => 50⟩ fun _ => none)
      (Walks.initial Table.empty) prunedRun
    let read := walkStep comparePoints ⟨fun _ => 100, fun _ => 50⟩ (fun _ => none) s .read
    s.pruned = [("a", 0)] ∧ ∃ flows, read.2 = some flows ∧
      flows.map RowObject.row = (fullRounds s.state.db).filter fun row => roundKey row ∉ read.1.pruned := by
  refine ⟨by decide +kernel, ?_⟩
  refine (headless_rounds_eq_query (fun _ => none) localeOrder_comparePoints Table.empty ?_).1
    (orderly_comparePoints _ _)
  intro front event back _
  cases event with
  | read => exact orderly_comparePoints _ _
  | tables => trivial
  | prune => trivial
  | evict => trivial

section Reload

/-- The second flow moves in the order and is projected. -/
def moveFlow (order : ℕ) : List (Event Unit) :=
  [.update ⟨.flows, "b"⟩ ⟨.flows, "b"⟩ (plainFlow order), .capture () [⟨.flows, "b"⟩], .project ()]

def moves : ℕ → List (Event Unit)
  | 0 => []
  | count + 1 => moves count ++ moveFlow (count + 1)

structure Moved (s : State Unit) (order : ℕ) : Prop where
  refines : Refines dateParse s.db
  pending : s.db.pending = []
  stored : s.db.stateRows.at? ⟨.flows, "b"⟩ = some (plainFlow order)

theorem flowRevision_projectOne {db : Db} {ref : Ref} (hflows : ref.collection = .flows)
    (hchanged : (group InputRow.ref db.inputs ref).head? ≠ (db.stateRows.at? ref).bind (inputOf ref)) :
    (projectOne dateParse db ref).1.revisions.flowRevision = db.revisions.flowRevision + 1 := by
  unfold projectOne
  dsimp only
  rw [if_neg (by simp [hchanged])]
  dsimp only
  rw [(forgetEmptyProjects_flow _ _ _).1, (advance_flow _ _ _ _).1, (raised_flow _ _ _).1, if_pos hflows]

/-- A move is a change of its flow, and of no other one. -/
theorem Moved.again {s : State Unit} {order : ℕ} (h : Moved dateParse s order) :
    let next := after (step dateParse) s (moveFlow (order + 1))
    Moved dateParse next (order + 1) ∧
      next.db.revisions.flowRevision = s.db.revisions.flowRevision + 1 ∧
      projected next.db ⟨.flows, "a"⟩ = projected s.db ⟨.flows, "a"⟩ := by
  obtain ⟨stored, hprojected, hcurrent⟩ := h.refines.source ⟨.flows, "b"⟩
  have hstored := (hcurrent rfl (by rw [h.pending]; exact List.not_mem_nil)).trans h.stored
  have hrefines := after_invariant (P := fun s : State Unit => Refines dateParse s.db)
    (fun s event hs => hs.step dateParse event) h.refines (moveFlow (order + 1))
  have hhas : s.db.stateRows.has ⟨.flows, "b"⟩ = true :=
    Table.has_eq_true.mpr ⟨_, Entries.at?_eq_some.mp h.stored, rfl⟩
  let db : Db := { s.db with
    stateRows := (s.db.stateRows.delete ⟨.flows, "b"⟩).set (⟨.flows, "b"⟩, plainFlow (order + 1))
    pending := [⟨.flows, "b"⟩] }
  have hprojects : Projects dateParse db (projectOne dateParse db ⟨.flows, "b"⟩).1 ⟨.flows, "b"⟩ :=
    projectOne_projects dateParse hprojected
  have hnext : after (step dateParse) s (moveFlow (order + 1)) =
      ⟨{ (projectOne dateParse db ⟨.flows, "b"⟩).1 with pending := [] }, Function.update s.batch () []⟩ := by
    have hpending : (projectOne dateParse db ⟨.flows, "b"⟩).1.pending.filter (· ≠ (⟨.flows, "b"⟩ : Ref)) = [] := by
      rw [hprojects.pending]
      rfl
    simpa [moveFlow, step, hhas, enqueue, tracked, h.pending, Function.update_self, db] using hpending
  have hrow : db.stateRows.at? ⟨.flows, "b"⟩ = some (plainFlow (order + 1)) := by
    simp [db, Entries.at?_set]
  have hbefore : (group InputRow.ref db.inputs ⟨.flows, "b"⟩).head? =
      inputOf ⟨.flows, "b"⟩ (plainFlow order) := by
    rw [show group InputRow.ref db.inputs ⟨.flows, "b"⟩ = _ from congrArg Projection.inputs hprojected, hstored]
    rfl
  have hchanged : (group InputRow.ref db.inputs ⟨.flows, "b"⟩).head? ≠
      (db.stateRows.at? ⟨.flows, "b"⟩).bind (inputOf ⟨.flows, "b"⟩) := by
    rw [hbefore, hrow]
    simp [inputOf, plainFlow]
  dsimp only
  rw [hnext] at hrefines ⊢
  refine ⟨⟨hrefines, rfl, ?_⟩, flowRevision_projectOne dateParse rfl hchanged, hprojects.other _ (by decide)⟩
  exact (congrArg (Entries.at? · ⟨.flows, "b"⟩) hprojects.stateRows).trans hrow

theorem Moved.moves {s : State Unit} (h : Moved dateParse s 0) (count : ℕ) :
    let next := after (step dateParse) s (moves count)
    Moved dateParse next count ∧
      next.db.revisions.flowRevision = s.db.revisions.flowRevision + count ∧
      projected next.db ⟨.flows, "a"⟩ = projected s.db ⟨.flows, "a"⟩ := by
  induction count with
  | zero => exact ⟨h, rfl, rfl⟩
  | succ count ih =>
    dsimp only at ih ⊢
    rw [History.moves, after_append]
    obtain ⟨hmoved, hrevision, hkept⟩ := ih
    obtain ⟨hnext, hadvanced, hsame⟩ := hmoved.again
    exact ⟨hnext, by rw [hadvanced, hrevision, Nat.add_assoc], hsame.trans hkept⟩

theorem after_tables (walks : Walks Unit) (events : List (Event Unit)) :
    after (walkStep localeCompare sizes dateParse) walks (events.map WalkEvent.tables) =
      { walks with state := after (step dateParse) walks.state events } := by
  induction events generalizing walks with
  | nil => rfl
  | cons event rest ih =>
    rw [List.map_cons, after_cons, ih]
    rfl

/-- A read more than 4096 changes behind answers the rounds of the flows that have not changed. -/
theorem returns_after_moves {walks : Walks Unit} {cache : HeadlessCache} {row : HeadlessRow} {count : ℕ}
    (h : Moved dateParse walks.state 0) (hcache : walks.shared.cache = some cache)
    (hnow : cache.revision = walks.state.db.revisions.flowRevision) (hrow : row ∈ heldRounds walks.state.db)
    (hkey : row.rowKey = "a") (hcount : 4096 < count) :
    let moved := after (walkStep localeCompare sizes dateParse) walks ((moves count).map WalkEvent.tables)
    projected moved.state.db ⟨.flows, "a"⟩ = projected walks.state.db ⟨.flows, "a"⟩ ∧
      ∃ flows, (walkStep localeCompare sizes dateParse moved .read).2 = some flows ∧
        ∃ object ∈ flows, object.row = row := by
  obtain ⟨-, hrevision, hkept⟩ := h.moves dateParse count
  rw [after_tables]
  generalize after (step dateParse) walks.state (moves count) = last at hrevision hkept
  refine ⟨hkept, _, rfl, ?_⟩
  have hbehind : behind last.db cache = true := by
    unfold behind
    rw [hnow, hrevision, Bool.or_eq_true, decide_eq_true_eq]
    exact Or.inl (by omega)
  have hheld := mem_fullRounds.mpr ((heldRounds_congr (hkey ▸ hkept)).mpr hrow)
  show ∃ object ∈ (historyHeadlessFlows localeCompare sizes last.db walks.shared).2, _
  unfold historyHeadlessFlows
  rw [hcache]
  dsimp only
  rw [if_pos (by omega), if_pos hbehind]
  have hrows : (allocate walks.shared.heap (fullRounds last.db)).map RowObject.row = fullRounds last.db :=
    allocate_rows _
  rw [← hrows] at hheld
  exact List.mem_map.mp hheld

end Reload

/-- The second flow was moved; the first one is as it was when its round was pruned, and a read answers
the round again. -/
def RoundReturns (count : ℕ) : Prop :=
  let walk := walkStep comparePoints ⟨fun _ => 100, fun _ => 50⟩ fun _ => none
  let pruned := after walk (Walks.initial Table.empty) prunedRun
  let moved := after walk pruned ((moves count).map WalkEvent.tables)
  pruned.pruned = [("a", 0)] ∧
    projected moved.state.db ⟨.flows, "a"⟩ = projected pruned.state.db ⟨.flows, "a"⟩ ∧
    ∃ flows, (walk moved .read).2 = some flows ∧ ∃ object ∈ flows, roundKey object.row = ("a", 0)

/-- The walks after `prunedRun`. -/
def prunedWalks : Walks Unit :=
  after (walkStep comparePoints ⟨fun _ => 100, fun _ => 50⟩ fun _ => none) (Walks.initial Table.empty) prunedRun

theorem prunedWalks_holds :
    WalksHold comparePoints ⟨fun _ => 100, fun _ => 50⟩ (fun _ => none) prunedWalks := by
  apply walksHold_after _ _ localeOrder_comparePoints Table.empty
  intro front event back _
  cases event with
  | read => exact orderly_comparePoints _ _
  | tables => trivial
  | prune => trivial
  | evict => trivial

theorem prunedWalks_cached : prunedWalks.shared.cache.map HeadlessCache.revision = some 2 ∧
    prunedWalks.state.db.revisions.flowRevision = 2 ∧ prunedWalks.pruned = [("a", 0)] := by
  decide +kernel

theorem prunedWalks_moved : Moved (fun _ => none) prunedWalks.state 0 :=
  ⟨prunedWalks_holds.refines, by decide +kernel, by decide +kernel⟩

theorem prunedWalks_round :
    (⟨"a", 0, 0, some "path", none, 1, none⟩ : HeadlessRow) ∈ heldRounds prunedWalks.state.db := by
  decide +kernel

theorem roundReturns {count : ℕ} (hcount : 4096 < count) : RoundReturns count := by
  obtain ⟨hcached, hstart, hpruned⟩ := prunedWalks_cached
  obtain ⟨cache, hcache, htwo⟩ := Option.map_eq_some_iff.mp hcached
  obtain ⟨hkept, flows, hflows, object, hobject, hrow⟩ :=
    returns_after_moves (fun _ => none) prunedWalks_moved hcache (htwo.trans hstart.symm) prunedWalks_round rfl hcount
  refine ⟨hpruned, hkept, flows, hflows, object, hobject, ?_⟩
  rw [hrow]
  exact rfl

/-- **A pruned round comes back** although its flow has not changed: the log is cut past the cache. -/
theorem pruned_round_returns : RoundReturns 4097 := roundReturns (by decide)

end Delegatus.History
