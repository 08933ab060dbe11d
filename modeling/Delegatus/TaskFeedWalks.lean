import Delegatus.TaskFeedPages
import Delegatus.Runs

/-!
# A log walk misses nothing

`Covered` is the invariant of a walk: every entry between the start and the place that the walk has reached
was told, or a later entry names its key.  A write keeps it, since a key that no later entry names keeps
its row (`Records.superseded`); a batch extends it, since the entries between its cursors are those it
scanned (`told_scan`).

Two things are not promised.  A row that is malformed on the wire is skipped, and a page that began before
there was a tombstone collection sends no tombstones.
-/

namespace Delegatus.TaskFeed

open LinkedBoards StateStore
open JsonText (Text)

variable {ρ τ : Type}

/-! ### What a walk has told -/

/-- The row is among the rows of the walk, or the wire rejects it. -/
def Sent (checks : FeedChecks) (w : Walk ρ) (row : WireRow) : Prop :=
  row ∈ w.rows ∨ wellFormed checks row = false

/-- The task that the key holds was sent, if the filters of the page let it pass. -/
def ToldTask (rows : TaskRows ρ τ) (checks : FeedChecks) (filter : FeedFilter) (w : Walk ρ)
    (found : Observation ρ) (key : String) : Prop :=
  ∀ id held task, behind 't' ':' key = some id → w.collection.rows.get? key = some held →
    rows.parse held.valueJson = some task → passesTask filter found.context task = true →
    Sent checks w (encoded checks filter (found.context.outbound task)).1

/-- The tombstone that the page found was sent, if the filters let it pass. -/
def ToldGone (checks : FeedChecks) (filter : FeedFilter) (w : Walk ρ) (found : Observation ρ)
    (key : String) : Prop :=
  found.context.tombstones = true → ∀ id tomb, behind 't' ':' key = some id →
    found.tombstone id = some tomb → passesTombstone filter tomb = true →
    Sent checks w (.gone ⟨id, tomb.project, tomb.gone⟩)

/-- A batch that found what the entry says told it. -/
def Told (rows : TaskRows ρ τ) (checks : FeedChecks) (filter : FeedFilter) (w : Walk ρ)
    (change : Change String) : Prop :=
  ∃ found ∈ w.seen, change.Reads found.collection ∧
    match change.operation with
    | .upsert => ToldTask rows checks filter w found change.rowKey
    | .delete => ToldGone checks filter w found change.rowKey

/-- Every entry between the two places was told, or is not its key's last. -/
def Covered (rows : TaskRows ρ τ) (checks : FeedChecks) (filter : FeedFilter) (start : Place)
    (w : Walk ρ) (place : Place) : Prop :=
  ∀ change ∈ w.history, start.before change = true → place.before change = false →
    Superseded w.history change ∨ Told rows checks filter w change

section Walks

variable {rows : TaskRows ρ τ} {checks : FeedChecks} {filter : FeedFilter} {start : Place}

theorem Sent.mono {w w' : Walk ρ} {row : WireRow} (h : Sent checks w row)
    (hrows : ∀ row ∈ w.rows, row ∈ w'.rows) : Sent checks w' row :=
  h.imp_left (hrows row)

theorem Told.mono {w w' : Walk ρ} {change : Change String} (h : Told rows checks filter w change)
    (hrows : ∀ row ∈ w.rows, row ∈ w'.rows) (hseen : ∀ found ∈ w.seen, found ∈ w'.seen)
    (hget : w'.collection.rows.get? change.rowKey = w.collection.rows.get? change.rowKey) :
    Told rows checks filter w' change := by
  obtain ⟨found, hfound, hreads, htold⟩ := h
  refine ⟨found, hseen found hfound, hreads, ?_⟩
  cases hoperation : change.operation with
  | upsert =>
    rw [hoperation] at htold
    intro id held task hid hheld htask hpasses
    rw [hget] at hheld
    exact (htold id held task hid hheld htask hpasses).mono hrows
  | delete =>
    rw [hoperation] at htold
    intro hopened id tomb hid htomb hpasses
    exact (htold hopened id tomb hid htomb hpasses).mono hrows

/-! ### Rows and their ids -/

theorem measuredRow_id (checks : WireChecks) (row : WireTask) : (measuredRow checks row).1.id = row.id := by
  unfold measuredRow
  dsimp only
  split
  · split
    · rfl
    · rfl
  · rfl

/-- Only tasks with a wire id have well formed rows. -/
theorem encoded_uuid {task : BoardTask ρ} (h : wellFormed checks (encoded checks filter task).1 = true) :
    isUuid task.id = true := by
  unfold encoded at h
  cases hrow : encodeTask checks.toWireChecks task filter.self filter.options with
  | task row =>
    rw [hrow] at h
    have hid : row.id = task.id := by
      unfold encodeTask at hrow
      dsimp only at hrow
      split at hrow
      · rw [← WireRow.task.inj hrow, measuredRow_id]
        rfl
      · exact nomatch hrow
    rw [← hid]
    exact checks.uuid row (Bool.and_eq_true_iff.mp h).2
  | gone row =>
    unfold encodeTask at hrow
    dsimp only at hrow
    split at hrow <;> exact nomatch hrow
  | stub row =>
    rw [hrow] at h
    have hid : row.id = task.id := by
      unfold encodeTask at hrow
      dsimp only at hrow
      split at hrow
      · exact nomatch hrow
      · rw [← WireRow.stub.inj hrow]
    rw [← hid]
    exact (Bool.and_eq_true_iff.mp (Bool.and_eq_true_iff.mp h).1).2

theorem short_of_wellFormed {c : Collection String} {context : PageContext ρ}
    {tombstone : String → Option TaskTombstone} {change : Change String} {row : FeedRow}
    (hkeyed : Keyed rows.options c)
    (hrow : rowOf rows checks filter context tombstone ⟨change, c.rows.get? change.rowKey⟩ = some row)
    (hwell : wellFormed checks row.row = true) : isPositionKey change.rowKey = true := by
  unfold rowOf at hrow
  obtain ⟨id, hid, hrow⟩ := Option.bind_eq_some_iff.mp hrow
  have hkey : change.rowKey = "t:" ++ id := of_behind hid
  cases hoperation : change.operation with
  | upsert =>
    rw [hoperation] at hrow
    obtain ⟨held, hheld, hrow⟩ := Option.bind_eq_some_iff.mp hrow
    obtain ⟨task, htask, rfl⟩ := Option.map_eq_some_iff.mp hrow
    obtain ⟨hget, -⟩ := Option.filter_eq_some_iff.mp hheld
    obtain ⟨hparse, -⟩ := Option.filter_eq_some_iff.mp htask
    obtain ⟨hmem, hrowKey⟩ := Table.get?_eq_some.mp hget
    obtain ⟨record, hrecord, hjson, -⟩ := hkeyed held hmem
    rw [← hjson] at hparse
    have hown := rows.keyed record task hparse
    rw [hrecord, hrowKey] at hown
    rw [hown]
    apply isPositionKey_of_uuid
    rw [← context.outbound_id task]
    exact encoded_uuid hwell
  | delete =>
    rw [hoperation] at hrow
    obtain ⟨tomb, -, rfl⟩ := Option.map_eq_some_iff.mp hrow
    rw [hkey]
    apply isPositionKey_of_uuid
    exact (Bool.and_eq_true_iff.mp (Bool.and_eq_true_iff.mp hwell).1).2

/-- A record's key is no token and not empty. -/
theorem key_of_record {key : String} (h : KeyOf rows.options key) :
    behind 'x' ':' key = none ∧ key ≠ "" := by
  obtain ⟨record, rfl, hsome⟩ := h
  refine ⟨?_, hsome⟩
  have htoken := rows.token record
  unfold behind
  split
  · next a b rest hchars =>
    rw [hchars] at htoken
    rw [if_neg]
    rintro ⟨rfl, rfl⟩
    exact htoken rfl
  · rfl

/-! ### One batch -/

/-- What a batch leaves beside the collection. -/
structure Grown (w : Walk ρ) (found : Observation ρ) (r : Reading ρ) (w' : Walk ρ) : Prop where
  collection : w'.collection = w.collection
  history : w'.history = w.history
  seen : ∀ other ∈ w.seen ++ [found], other ∈ w'.seen
  rows : ∀ row ∈ w.rows, row ∈ w'.rows
  page : ∀ row ∈ r.rows.map Prod.fst, row ∈ w'.rows

/-- **A scanned entry that is its key's last was told.** -/
theorem told_scan {w w' : Walk ρ} {r r' : Reading ρ} {done : List LogEntry}
    {tombstone : String → Option TaskTombstone} (hrecorded : Recorded w.history w.collection)
    (hcovered : Covered rows checks filter start w r.cursor)
    (hscan : Scan rows checks filter tombstone r done r')
    (hjoined : ∀ entry ∈ done, entry.row = w.collection.rows.get? entry.change.rowKey)
    (hgrown : Grown w ⟨r.context, tombstone, w.collection⟩ r' w') {change : Change String}
    (hchange : change ∈ w'.history) (hstart : start.before change = true)
    (hdone : r.cursor.before change = true → change ∈ done.map LogEntry.change) :
    Superseded w'.history change ∨ Told rows checks filter w' change := by
  rw [hgrown.history] at hchange ⊢
  by_cases hbefore : r.cursor.before change = true
  · rcases hrecorded.reads change hchange with hlater | hreads
    · exact Or.inl hlater
    · right
      obtain ⟨entry, hentry, hof⟩ := List.mem_map.mp (hdone hbefore)
      have hrow := hjoined entry hentry
      rw [hof] at hrow
      have hsent : ∀ row, rowOf rows checks filter r.context tombstone entry = some row →
          Sent checks w' row.row := by
        intro row hsome
        exact (hscan.told entry hentry row hsome).imp_left (hgrown.page row.row)
      refine ⟨_, hgrown.seen _ (List.mem_append_right _ (List.mem_singleton_self _)), hreads, ?_⟩
      unfold Change.Reads at hreads
      cases hoperation : change.operation with
      | upsert =>
        rw [hoperation] at hreads
        intro id held task hid hheld htask hpasses
        rw [hgrown.collection] at hheld
        obtain ⟨row, hget, hstamp⟩ := hreads
        rw [hheld] at hget
        obtain rfl := Option.some.inj hget
        have hmade : ∃ row, rowOf rows checks filter r.context tombstone entry = some row ∧
            row.row = (encoded checks filter (r.context.outbound task)).1 := by
          unfold rowOf
          rw [hof, hid, Option.bind_some, hoperation, hrow, hheld]
          dsimp only
          rw [Option.filter_some, if_pos (decide_eq_true hstamp), Option.bind_some, htask,
            Option.filter_some, if_pos hpasses, Option.map_some]
          exact ⟨_, rfl, rfl⟩
        obtain ⟨row, hsome, hrowOf⟩ := hmade
        rw [← hrowOf]
        exact hsent row hsome
      | delete =>
        intro hopened id tomb hid htomb hpasses
        refine hsent ⟨_, checks.otherBytes (.gone ⟨id, tomb.project, tomb.gone⟩), id, false⟩ ?_
        unfold rowOf
        rw [hof, hid, Option.bind_some, hoperation]
        dsimp only at hopened htomb ⊢
        rw [if_pos hopened, htomb, Option.filter_some, if_pos hpasses, Option.map_some]
  · rw [Bool.not_eq_true] at hbefore
    apply (hcovered change hchange hstart hbefore).imp_right
    intro htold
    apply htold.mono hgrown.rows
    · intro found hfound
      exact hgrown.seen found (List.mem_append_left _ hfound)
    · rw [hgrown.collection]

/-- A batch that is not refused still finds every entry after its cursor in the log. -/
theorem mem_pending_of_history {w : Walk ρ} {place : Place} (hrecorded : Recorded w.history w.collection)
    (hfloor : ¬(decide (place.revision < w.collection.changeFloor) ||
      (decide (place.revision = w.collection.changeFloor) && decide (place.key ≠ ""))) = true)
    {change : Change String} (hchange : change ∈ w.history) (hbefore : place.before change = true) :
    change ∈ pending w.collection place := by
  simp only [Bool.or_eq_true, Bool.and_eq_true, decide_eq_true_eq, not_or, not_and, not_lt] at hfloor
  apply mem_pending.mpr ⟨hrecorded.kept change hchange ?_, hbefore, hrecorded.le change hchange⟩
  rcases Place.before_iff.mp hbefore with hlt | ⟨hsome, hsame, -⟩
  · omega
  · have hne : place.revision ≠ w.collection.changeFloor := fun heq => hfloor.2 heq hsome
    omega

/-- The entries of a batch, cut where a page stops. -/
theorem split_pending {c : Collection String} {place : Place} {limit : Nat} {done rest : List LogEntry}
    (h : (changesAfter c place limit).entries = done ++ rest) :
    (∀ entry ∈ done ++ rest, entry.row = c.rows.get? entry.change.rowKey) ∧
      ∃ others, pending c place = done.map LogEntry.change ++ (rest.map LogEntry.change ++ others) := by
  rw [changes_batch] at h
  constructor
  · intro entry hentry
    rw [← h] at hentry
    obtain ⟨change, -, rfl⟩ := List.mem_map.mp hentry
    rfl
  · refine ⟨(pending c place).drop limit, ?_⟩
    have hmap := congrArg (List.map LogEntry.change) h
    rw [List.map_map, List.map_append] at hmap
    have hid : (LogEntry.change ∘ fun change : Change String =>
        (⟨change, c.rows.get? change.rowKey⟩ : LogEntry)) = id := rfl
    rw [hid, List.map_id] at hmap
    rw [← List.append_assoc, ← hmap, List.take_append_drop]

/-- The entries that a cursor has passed since the batch began are those scanned. -/
theorem passed_scanned {w : Walk ρ} {place : Place} {done rest : List (Change String)}
    (hrecorded : Recorded w.history w.collection) (hnamed : ∀ change ∈ w.history, change.rowKey ≠ "")
    (hsplit : pending w.collection place = done ++ rest) {change : Change String}
    (hpending : change ∈ pending w.collection place)
    (hpassed : ((done.getLast?.map placeAt).getD place).before change = false) : change ∈ done := by
  have hbefore := (mem_pending.mp hpending).2.1
  have hmem : ∀ other, other ∈ pending w.collection place → other ∈ w.history :=
    fun other hother => hrecorded.mem other (mem_pending.mp hother).1
  rw [hsplit] at hpending
  rcases List.mem_append.mp hpending with hdone | hrest
  · exact hdone
  · cases hlast : done.getLast? with
    | none =>
      rw [hlast, Option.map_none, Option.getD_none, hbefore] at hpassed
      exact nomatch hpassed
    | some last =>
      rw [hlast, Option.map_some, Option.getD_some] at hpassed
      have hlastmem : last ∈ done := List.mem_of_getLast? hlast
      have hordered := pending_ordered w.collection place
      rw [hsplit, List.pairwise_append] at hordered
      have hlastHistory := hmem last (by rw [hsplit]; exact List.mem_append_left _ hlastmem)
      have hchangeHistory := hmem change (by rw [hsplit]; exact List.mem_append_right _ hrest)
      have hnot : ¬(placeAt last).before change = true := by rw [hpassed]; exact Bool.false_ne_true
      rw [Place.before_iff] at hnot
      simp only [placeAt, not_or, not_and, not_lt] at hnot
      rcases hordered.2.2 last hlastmem change hrest with hlt | ⟨hsame, hle⟩
      · exact absurd hlt (not_lt.mpr hnot.1)
      · have hge := hnot.2 (hnamed last hlastHistory) hsame.symm
        have heq := hrecorded.unique last hlastHistory change hchangeHistory hsame (le_antisymm hle hge)
        rwa [← heq]

/-! ### The invariant -/

/-- The bounds of a page that was answered. -/
def LogPage.Fits : LogPage → Prop
  | .page rows _ _ _ => TaskFeed.Fits rows
  | .resync => True

/-- A page in progress began at the walk's position. -/
structure Begun (w : Walk ρ) (r : Reading ρ) (begun : Place) : Prop where
  place : placeOf w.checkpoints w.position = some begun
  progress : Progress w.checkpoints begun r
  fits : Fits r.rows
  within : r.cursor.revision ≤ w.collection.revision

/-- The walk has reached a place of its log, or it still stands at the start. -/
def Reached (rows : TaskRows ρ τ) (checks : FeedChecks) (filter : FeedFilter) (start : Place)
    (w : Walk ρ) (place : Place) : Prop :=
  place = start ∨
    (place.revision ≤ w.collection.revision ∧ Covered rows checks filter start w place)

/-- What every event of a walk keeps. -/
structure Kept (rows : TaskRows ρ τ) (checks : FeedChecks) (filter : FeedFilter) (start : Place)
    (w : Walk ρ) : Prop where
  sound : Sound rows.options w.collection
  keyed : Keyed rows.options w.collection
  recorded : Recorded w.history w.collection
  named : ∀ change ∈ w.history, KeyOf rows.options change.rowKey
  pages : ∀ page ∈ w.pages, page.Fits
  base : ∃ place, placeOf w.checkpoints w.position = some place ∧
    Reached rows checks filter start { w with reading := none } place
  reading : ∀ r, w.reading = some r → ∃ begun, Begun w r begun ∧
    Covered rows checks filter start w r.cursor

/-- A step that answers nothing or a page that advances. -/
structure Turns (rows : TaskRows ρ τ) (checks : FeedChecks) (filter : FeedFilter) (start : Place)
    (w : Walk ρ) (result : Walk ρ × Option LogPage) : Prop where
  kept : Kept rows checks filter start result.1
  advances : ∀ page cursor withheld, result.2 = some (.page page cursor true withheld) →
    ∃ a b, placeOf w.checkpoints w.position = some a ∧
      placeOf result.1.checkpoints result.1.position = some b ∧ a.lt b

theorem TaskWrite.records {c out : Collection String} {write : TaskWrite τ}
    (hsound : Sound rows.options c) (hkeyed : Keyed rows.options c)
    (h : write.apply rows.options c = .ok out) :
    Records rows.options c out ∧ Sound rows.options out := by
  cases write with
  | patchSync records deleteKeys appendKeys =>
    exact ⟨persistReplacement_records hsound hkeyed h, (persistReplacement_commits hsound h).sound⟩
  | boundedPatch limit operations companionRows =>
    refine ⟨boundedPatch_records hsound ?_ h, (boundedPatch_commits hsound h).sound⟩
    intro key hkey
    obtain ⟨operation, -, hoperation⟩ := List.mem_map.mp hkey
    cases operation <;> exact nomatch hoperation

theorem Place.le_revision {a b : Place} (h : a.le b) : a.revision ≤ b.revision := by
  have hafter : a.before ⟨b.revision + 1, a.key, .delete⟩ = true := by
    apply h
    exact Place.before_iff.mpr (Or.inl (Nat.lt_succ_self _))
  rcases Place.before_iff.mp hafter with hlt | ⟨-, -, hlt⟩
  · exact Nat.le_of_lt_succ hlt
  · exact absurd hlt (lt_irrefl _)

theorem revision_le_of_passed {place : Place} {change : Change String}
    (h : place.before change = false) : change.revision ≤ place.revision := by
  by_contra hlt
  rw [Place.before_iff.mpr (Or.inl (not_le.mp hlt))] at h
  exact nomatch h

/-- The walk stands where it started. -/
theorem covered_start (w : Walk ρ) : Covered rows checks filter start w start := by
  intro change _ hstart hpassed
  rw [hstart] at hpassed
  exact nomatch hpassed

theorem Reached.covered {w : Walk ρ} {place : Place} (h : Reached rows checks filter start w place) :
    Covered rows checks filter start w place := by
  rcases h with rfl | ⟨-, hcovered⟩
  · exact covered_start w
  · exact hcovered

/-- **A write keeps what the walk has told.** -/
theorem Covered.write {w : Walk ρ} {place : Place} {out : Collection String}
    (h : Covered rows checks filter start w place) (hrecorded : Recorded w.history w.collection)
    (hrecords : Records rows.options w.collection out) (hle : place.revision ≤ w.collection.revision) :
    Covered rows checks filter start
      { w with collection := out, history := w.history ++ newEntries w.collection out } place := by
  intro change hchange hstart hpassed
  have hold : change ∈ w.history := by
    rcases List.mem_append.mp hchange with hold | hnew
    · exact hold
    · have hlater := (mem_newEntries.mp hnew).2
      have hbound := revision_le_of_passed hpassed
      omega
  rcases h change hold hstart hpassed with hlater | htold
  · exact Or.inl hlater.mono
  · rcases hrecords.superseded hrecorded hold with hlater | hsame
    · exact Or.inl hlater
    · exact Or.inr (htold.mono (fun _ hrow => hrow) (fun _ hfound => hfound) hsame)

theorem Kept.write {w : Walk ρ} (h : Kept rows checks filter start w) {out : Collection String}
    {write : TaskWrite τ} (hwrite : write.apply rows.options w.collection = .ok out) :
    Kept rows checks filter start
      { w with collection := out, history := w.history ++ newEntries w.collection out } := by
  obtain ⟨hrecords, hsound⟩ := TaskWrite.records h.sound h.keyed hwrite
  refine ⟨hsound, hrecords.keyed h.keyed, h.recorded.write hrecords, ?_, h.pages, ?_, ?_⟩
  · intro change hchange
    rcases List.mem_append.mp hchange with hold | hnew
    · exact h.named change hold
    · obtain ⟨hmem, hlater⟩ := mem_newEntries.mp hnew
      exact hrecords.names change hmem hlater
  · obtain ⟨place, hplace, hbase⟩ := h.base
    refine ⟨place, hplace, ?_⟩
    rcases hbase with hstart | ⟨hle, hreached⟩
    · exact Or.inl hstart
    · exact Or.inr ⟨hle.trans hrecords.revision_le, hreached.write h.recorded hrecords hle⟩
  · intro r hr
    obtain ⟨begun, hbegun, hreached⟩ := h.reading r hr
    refine ⟨begun, ⟨hbegun.place, hbegun.progress, hbegun.fits, ?_⟩,
      hreached.write h.recorded hrecords hbegun.within⟩
    exact hbegun.within.trans hrecords.revision_le

/-! ### Answers -/

theorem Covered.mono {w w' : Walk ρ} {place : Place} (h : Covered rows checks filter start w place)
    (hcollection : w'.collection = w.collection) (hhistory : w'.history = w.history)
    (hseen : ∀ found ∈ w.seen, found ∈ w'.seen) (hrows : ∀ row ∈ w.rows, row ∈ w'.rows) :
    Covered rows checks filter start w' place := by
  intro change hchange hstart hpassed
  rw [hhistory] at hchange ⊢
  apply (h change hchange hstart hpassed).imp_right
  exact fun htold => htold.mono hrows hseen (by rw [hcollection])

theorem Reached.mono {w w' : Walk ρ} {place : Place} (h : Reached rows checks filter start w place)
    (hcollection : w'.collection = w.collection) (hhistory : w'.history = w.history)
    (hseen : ∀ found ∈ w.seen, found ∈ w'.seen) (hrows : ∀ row ∈ w.rows, row ∈ w'.rows) :
    Reached rows checks filter start w' place := by
  rcases h with hstart | ⟨hle, hcovered⟩
  · exact Or.inl hstart
  · refine Or.inr ⟨?_, hcovered.mono hcollection hhistory hseen hrows⟩
    rw [hcollection]
    exact hle

theorem mem_rows {w : Walk ρ} {row : WireRow} : row ∈ w.rows ↔
    (∃ page ∈ w.pages, row ∈ page.rows.map Prod.fst) ∨
      ∃ r, w.reading = some r ∧ row ∈ r.rows.map Prod.fst := by
  unfold Walk.rows
  rw [List.map_append, List.mem_append, List.map_flatMap, List.mem_flatMap]
  cases w.reading <;> simp

/-- What an answer adds to the rows of a walk. -/
theorem rows_answer (w : Walk ρ) (page : LogPage) (checkpoint : Option (String × Place)) (row : WireRow) :
    row ∈ (w.answer page checkpoint).1.rows ↔
      row ∈ { w with reading := none }.rows ∨ row ∈ page.rows.map Prod.fst := by
  rw [mem_rows, mem_rows]
  simp only [Walk.answer, List.mem_append, List.mem_singleton, reduceCtorEq, false_and, exists_false,
    or_false, or_and_right, exists_or, exists_eq_left]

/-! ### Opening a page -/

theorem placeOf_empty {position : Position} {place : Place} (checkpoints : Entries String Place)
    (h : placeOf Table.empty position = some place) : placeOf checkpoints position = some place := by
  unfold placeOf at h ⊢
  cases position with
  | whole revision => exact h
  | inside revision key =>
    dsimp only at h ⊢
    cases hbehind : behind 'x' ':' key with
    | none =>
      rw [hbehind] at h
      exact h
    | some token =>
      rw [hbehind] at h
      dsimp only at h
      rw [Entries.at?_empty, Option.filter_none] at h
      exact nomatch h

/-- An answer that leaves the walk where it stands. -/
theorem Kept.stay {w : Walk ρ} (h : Kept rows checks filter start w) (page : LogPage)
    (hfits : page.Fits) (hposition : ∀ rows cursor more withheld,
      page = .page rows cursor more withheld → cursor = w.position ∧ more = false) :
    Turns rows checks filter start w (w.answer page none) := by
  have hsame : (w.answer page none).1.position = w.position := by
    cases page with
    | page rows cursor more withheld => exact (hposition rows cursor more withheld rfl).1
    | resync => rfl
  constructor
  · refine ⟨h.sound, h.keyed, h.recorded, h.named, ?_, ?_, ?_⟩
    · intro other hother
      rcases List.mem_append.mp hother with hold | hnew
      · exact h.pages other hold
      · rw [List.mem_singleton.mp hnew]
        exact hfits
    · obtain ⟨place, hplace, hbase⟩ := h.base
      refine ⟨place, hsame ▸ hplace, ?_⟩
      apply Reached.mono hbase
      · rfl
      · rfl
      · exact fun _ hfound => hfound
      · intro row hrow
        exact (rows_answer w page none row).mpr (Or.inl hrow)
    · intro r hr
      exact nomatch hr
  · intro rows' cursor withheld hpage
    exact nomatch (hposition _ _ _ _ (Option.some.inj hpage)).2

theorem Kept.openPage {w : Walk ρ} (h : Kept rows checks filter start w) (context : PageContext ρ)
    {current : Nat} (expired : Bool) (hcurrent : current ≤ w.collection.revision) :
    Turns rows checks filter start w (w.openPage context current expired) := by
  unfold Walk.openPage
  cases hplace : placeOf (if expired then Table.empty else w.checkpoints) w.position with
  | none => exact h.stay .resync trivial (fun _ _ _ _ hpage => nomatch hpage)
  | some place =>
    have hat : placeOf w.checkpoints w.position = some place := by
      cases expired with
      | true => exact placeOf_empty w.checkpoints hplace
      | false => exact hplace
    dsimp only
    split
    · exact h.stay .resync trivial (fun _ _ _ _ hpage => nomatch hpage)
    next hnear =>
    split
    · apply h.stay
      · exact ⟨Nat.zero_le _, Or.inl (Nat.zero_le _)⟩
      · intro rows' cursor more withheld hpage
        cases hpage
        exact ⟨rfl, rfl⟩
    · constructor
      · refine ⟨h.sound, h.keyed, h.recorded, h.named, h.pages, h.base, ?_⟩
        intro r hr
        obtain rfl := Option.some.inj hr
        refine ⟨place, ⟨hat, ?_, ?_, ?_⟩, ?_⟩
        · exact ⟨Place.le_refl _, Place.le_refl _, hat, Or.inl rfl, fun hne => absurd rfl hne⟩
        · exact ⟨Nat.zero_le _, Or.inl (Nat.zero_le _)⟩
        · exact (not_lt.mp hnear).trans hcurrent
        · obtain ⟨base, hbase, hreached⟩ := h.base
          obtain rfl := Option.some.inj (hbase.symm.trans hat)
          apply Covered.mono hreached.covered
          · rfl
          · rfl
          · exact fun _ hfound => hfound
          · intro row hrow
            rcases mem_rows.mp hrow with hpages | ⟨r, hr, -⟩
            · exact mem_rows.mpr (Or.inl hpages)
            · exact nomatch hr
      · exact fun _ _ _ hpage => nomatch hpage

end Walks

end Delegatus.TaskFeed
