import Delegatus.TaskFeedWalks

/-!
# Every walk of the log

A batch extends what the walk has told up to its cursor (`Kept.told`).  It ends a page at its cursor, at
the continuation behind it, or at the end of the revision, and each of these is a place that the cursor has
passed.  So every event keeps `Kept`, and a page with more behind it moves the position (`step_turns`).
-/

namespace Delegatus.TaskFeed

open LinkedBoards StateStore
open JsonText (Text)

variable {ρ τ : Type}

section Runs

variable {rows : TaskRows ρ τ} {checks : FeedChecks} {filter : FeedFilter} {start : Place}
  {tokenOf : Place → String} {tombstone : String → Option TaskTombstone}

/-- The walk with what the next batch finds. -/
def Walk.observed (w : Walk ρ) (found : Observation ρ) : Walk ρ := { w with seen := w.seen ++ [found] }

theorem Kept.observed {w : Walk ρ} (h : Kept rows checks filter start w) (found : Observation ρ) :
    Kept rows checks filter start (w.observed found) := by
  have hseen : ∀ other ∈ w.seen, other ∈ (w.observed found).seen :=
    fun _ hother => List.mem_append_left _ hother
  refine ⟨h.sound, h.keyed, h.recorded, h.named, h.pages, ?_, ?_⟩
  · obtain ⟨place, hplace, hbase⟩ := h.base
    exact ⟨place, hplace, Reached.mono hbase rfl rfl hseen (fun _ hrow => hrow)⟩
  · intro r hr
    obtain ⟨begun, hbegun, hcovered⟩ := h.reading r hr
    exact ⟨begun, ⟨hbegun.place, hbegun.progress, hbegun.fits, hbegun.within⟩,
      Covered.mono hcovered rfl rfl hseen (fun _ hrow => hrow)⟩

/-- The first entries of a batch, scanned from the cursor of the page in progress. -/
structure Scanned (rows : TaskRows ρ τ) (checks : FeedChecks) (filter : FeedFilter) (start : Place)
    (tombstone : String → Option TaskTombstone) (w : Walk ρ) (r r' : Reading ρ)
    (done rest : List LogEntry) : Prop where
  reading : w.reading = some r
  near : ¬(decide (r.cursor.revision < w.collection.changeFloor) ||
    (decide (r.cursor.revision = w.collection.changeFloor) && decide (r.cursor.key ≠ ""))) = true
  batch : (changesAfter w.collection r.cursor LOG_BATCH).entries = done ++ rest
  scan : scanEntries rows checks filter tombstone r done = .ok r'

namespace Scanned

variable {w : Walk ρ} {r r' : Reading ρ} {done rest : List LogEntry}

theorem joined (h : Scanned rows checks filter start tombstone w r r' done rest) :
    ∀ entry ∈ done ++ rest, entry.row = w.collection.rows.get? entry.change.rowKey :=
  (split_pending h.batch).1

theorem mem_pending (h : Scanned rows checks filter start tombstone w r r' done rest) {entry : LogEntry}
    (hentry : entry ∈ done ++ rest) : entry.change ∈ pending w.collection r.cursor := by
  obtain ⟨-, others, hsplit⟩ := split_pending h.batch
  rw [hsplit, ← List.append_assoc, ← List.map_append]
  exact List.mem_append_left _ (List.mem_map_of_mem hentry)

theorem cursor (h : Scanned rows checks filter start tombstone w r r' done rest) :
    r'.cursor = ((done.map LogEntry.change).getLast?.map placeAt).getD r.cursor := by
  rw [(scan_of_ok h.scan).cursor, List.getLast?_map, Option.map_map]
  rfl

/-- The entries are entries at which a page can stop. -/
theorem sayable (h : Scanned rows checks filter start tombstone w r r' done rest)
    (hkept : Kept rows checks filter start w) {begun : Place} (hle : begun.le r.cursor) {entry : LogEntry}
    (hentry : entry ∈ done ++ rest) : Sayable rows checks filter tombstone r.context begun entry := by
  obtain ⟨hmem, hbefore, -⟩ := TaskFeed.mem_pending.mp (h.mem_pending hentry)
  obtain ⟨htoken, hnamed⟩ := key_of_record (hkept.named entry.change (hkept.recorded.mem entry.change hmem))
  refine ⟨hle _ hbefore, hnamed, htoken, ?_⟩
  intro row hrow hwell
  have hentry' : entry = ⟨entry.change, w.collection.rows.get? entry.change.rowKey⟩ := by
    rw [← h.joined entry hentry]
  rw [hentry'] at hrow
  exact short_of_wellFormed hkept.keyed hrow hwell

/-- The page that is in progress after the entries. -/
theorem begun (h : Scanned rows checks filter start tombstone w r r' done rest)
    (hkept : Kept rows checks filter start w) : ∃ begun, Begun w r' begun := by
  obtain ⟨begun, hbegun, -⟩ := hkept.reading r h.reading
  have hscan := scan_of_ok h.scan
  refine ⟨begun, hbegun.place, ?_, hscan.fits hbegun.fits, ?_⟩
  · obtain ⟨-, others, hsplit⟩ := split_pending h.batch
    have hordered := pending_ordered w.collection r.cursor
    rw [hsplit] at hordered
    apply hbegun.progress.scan h.scan (List.pairwise_append.mp hordered).1
    · intro entry hentry
      exact Place.le_of_before (TaskFeed.mem_pending.mp (h.mem_pending (List.mem_append_left _ hentry))).2.1
    · intro entry hentry
      exact h.sayable hkept hbegun.progress.passed (List.mem_append_left _ hentry)
  · rw [hscan.cursor]
    cases hlast : done.getLast? with
    | none => exact hbegun.within
    | some entry =>
      have hmem := List.mem_append_left rest (List.mem_of_getLast? hlast)
      exact (TaskFeed.mem_pending.mp (h.mem_pending hmem)).2.2

/-- **The entries up to a place were told, if those after the cursor and up to it are scanned.** -/
theorem told (h : Scanned rows checks filter start tombstone w r r' done rest)
    (hkept : Kept rows checks filter start w) {w' : Walk ρ}
    (hgrown : Grown w ⟨r.context, tombstone, w.collection⟩ r' w') {place : Place}
    (hplace : ∀ change ∈ pending w.collection r.cursor, place.before change = false →
      change ∈ done.map LogEntry.change) : Covered rows checks filter start w' place := by
  obtain ⟨begun, -, hcovered⟩ := hkept.reading r h.reading
  intro change hchange hstart hpassed
  apply told_scan hkept.recorded hcovered (scan_of_ok h.scan) ?_ hgrown hchange hstart
  · intro hbefore
    rw [hgrown.history] at hchange
    exact hplace change (mem_pending_of_history hkept.recorded h.near hchange hbefore) hpassed
  · exact fun entry hentry => h.joined entry (List.mem_append_left _ hentry)

/-- The cursor covers what was scanned. -/
theorem covered (h : Scanned rows checks filter start tombstone w r r' done rest)
    (hkept : Kept rows checks filter start w) {w' : Walk ρ}
    (hgrown : Grown w ⟨r.context, tombstone, w.collection⟩ r' w') :
    Covered rows checks filter start w' r'.cursor := by
  obtain ⟨-, others, hsplit⟩ := split_pending h.batch
  apply h.told hkept hgrown
  intro change hpending hpassed
  rw [h.cursor] at hpassed
  apply passed_scanned hkept.recorded ?_ hsplit hpending hpassed
  exact fun other hother => (key_of_record (hkept.named other hother)).2

/-- What the walk is once the scanned rows are answered. -/
theorem grown (h : Scanned rows checks filter start tombstone w r r' done rest) (found : Observation ρ)
    (cursor : Position) (more : Bool) (checkpoint : Option (String × Place)) :
    Grown w found r'
      ((w.observed found).answer (.page r'.rows cursor more r'.withheld) checkpoint).1 := by
  refine ⟨rfl, rfl, fun _ hother => hother, ?_, ?_⟩
  · intro row hrow
    rw [rows_answer]
    rcases mem_rows.mp hrow with hpages | ⟨other, hother, hmem⟩
    · exact Or.inl (mem_rows.mpr (Or.inl hpages))
    · right
      rw [h.reading] at hother
      obtain rfl := Option.some.inj hother
      obtain ⟨pair, hpair, hfst⟩ := List.mem_map.mp hmem
      exact List.mem_map.mpr ⟨pair, (scan_of_ok h.scan).kept pair hpair, hfst⟩
  · intro row hrow
    rw [rows_answer]
    exact Or.inr hrow

/-- An answer at a place that the scanned entries cover. -/
theorem turns (h : Scanned rows checks filter start tombstone w r r' done rest)
    (hkept : Kept rows checks filter start w) {begun place : Place} (hbegun : Begun w r' begun)
    {cursor : Position} {more : Bool} {checkpoint : Option (String × Place)}
    (hplace : placeOf ((w.observed ⟨r.context, tombstone, w.collection⟩).answer
      (.page r'.rows cursor more r'.withheld) checkpoint).1.checkpoints cursor = some place)
    (hwithin : place.revision ≤ w.collection.revision)
    (hpassed : ∀ change ∈ pending w.collection r.cursor, place.before change = false →
      change ∈ done.map LogEntry.change)
    (hmoved : more = true → begun.lt place) :
    Turns rows checks filter start w ((w.observed ⟨r.context, tombstone, w.collection⟩).answer
      (.page r'.rows cursor more r'.withheld) checkpoint) := by
  have hgrown := h.grown ⟨r.context, tombstone, w.collection⟩ cursor more checkpoint
  constructor
  · refine ⟨hkept.sound, hkept.keyed, hkept.recorded, hkept.named, ?_, ?_, ?_⟩
    · intro page hpage
      rcases List.mem_append.mp hpage with hold | hnew
      · exact hkept.pages page hold
      · rw [List.mem_singleton.mp hnew]
        exact hbegun.fits
    · exact ⟨place, hplace, Or.inr ⟨hwithin, h.told hkept hgrown hpassed⟩⟩
    · intro other hother
      exact nomatch hother
  · intro page other withheld hpage
    cases hpage
    exact ⟨begun, place, hbegun.place, hplace, hmoved rfl⟩

/-- No entry that is left is of a revision before the cursor's. -/
theorem cursor_le (h : Scanned rows checks filter start tombstone w r r' done rest)
    {entry : LogEntry} (hentry : entry ∈ rest) :
    r'.cursor.revision ≤ entry.change.revision := by
  rw [(scan_of_ok h.scan).cursor]
  cases hlast : done.getLast? with
  | none =>
    have hbefore := (TaskFeed.mem_pending.mp (h.mem_pending (List.mem_append_right _ hentry))).2.1
    exact Place.le_revision (Place.le_of_before hbefore)
  | some last =>
    obtain ⟨-, others, hsplit⟩ := split_pending h.batch
    have hordered := pending_ordered w.collection r.cursor
    rw [hsplit, List.pairwise_append] at hordered
    have hmem := List.mem_map_of_mem (f := LogEntry.change) (List.mem_of_getLast? hlast)
    have hother := List.mem_append_left others (List.mem_map_of_mem (f := LogEntry.change) hentry)
    rcases hordered.2.2 _ hmem _ hother with hlt | ⟨hsame, -⟩
    · exact hlt.le
    · exact hsame.le

/-- The entries behind the continuation are among those scanned. -/
theorem passed (h : Scanned rows checks filter start tombstone w r r' done rest)
    (hkept : Kept rows checks filter start w) {place : Place} (hle : place.le r'.cursor) :
    ∀ change ∈ pending w.collection r.cursor, place.before change = false →
      change ∈ done.map LogEntry.change := by
  obtain ⟨-, others, hsplit⟩ := split_pending h.batch
  intro change hpending hpassed
  apply passed_scanned hkept.recorded ?_ hsplit hpending
  · rw [← h.cursor]
    by_contra hbefore
    rw [hle change (by simpa using hbefore)] at hpassed
    exact nomatch hpassed
  · exact fun other hother => (key_of_record (hkept.named other hother)).2

end Scanned

/-! ### Where a page ends -/

theorem Begun.revision_le {w : Walk ρ} {r : Reading ρ} {begun : Place} (h : Begun w r begun) :
    r.continuationCursor.revision ≤ w.collection.revision :=
  (Place.le_revision h.progress.behind).trans h.within

/-- A page that is full ends at its continuation, or at the end of the continuation's revision where the
next entry starts another one. -/
theorem Scanned.full {w : Walk ρ} {r r' : Reading ρ} {done rest : List LogEntry} {next : LogEntry}
    (h : Scanned rows checks filter start tombstone w r r' done (next :: rest))
    (hkept : Kept rows checks filter start w) (hrows : r'.rows ≠ []) :
    Turns rows checks filter start w ((w.observed ⟨r.context, tombstone, w.collection⟩).answer
      (.page r'.rows (ended r'.continuation next.change.revision) true r'.withheld) none) := by
  obtain ⟨begun, hbegun⟩ := h.begun hkept
  have hprogress := hbegun.progress
  have hmoved := hprogress.page hrows
  have hplace := hprogress.continuation
  cases hcontinuation : r'.continuation with
  | whole revision =>
    rw [hcontinuation] at hplace
    exact h.turns hkept hbegun hplace hbegun.revision_le (h.passed hkept hprogress.behind)
      (fun _ => hmoved)
  | inside revision key =>
    unfold ended
    dsimp only
    split
    case isFalse hsame =>
      rw [hcontinuation] at hplace
      exact h.turns hkept hbegun hplace hbegun.revision_le (h.passed hkept hprogress.behind)
        (fun _ => hmoved)
    case isTrue hother =>
      have hrevision : r'.continuationCursor.revision = revision := by
        rw [hcontinuation] at hplace
        unfold placeOf at hplace
        dsimp only at hplace
        split at hplace
        · rw [← Option.some.inj hplace]
        · exact of_decide_eq_true (Option.filter_eq_some_iff.mp hplace).2
      have hwhole : placeOf w.checkpoints (.whole revision) = some ⟨revision, ""⟩ := rfl
      refine h.turns hkept hbegun hwhole ?_ ?_ ?_
      · change revision ≤ w.collection.revision
        rw [← hrevision]
        exact hbegun.revision_le
      · intro change hpending hpassed
        have hle := revision_le_of_passed hpassed
        obtain ⟨-, others, hsplit⟩ := split_pending h.batch
        have hordered := pending_ordered w.collection r.cursor
        rw [hsplit, List.pairwise_append, List.map_cons, List.cons_append, List.pairwise_cons] at hordered
        rw [hsplit, List.map_cons, List.cons_append] at hpending
        rcases List.mem_append.mp hpending with hdone | hleft
        · exact hdone
        · have hnext : next.change.revision ≤ change.revision := by
            rcases List.mem_cons.mp hleft with rfl | hlater
            · exact le_refl _
            · rcases hordered.2.1.1 change hlater with hlt | ⟨hsame, -⟩
              · exact hlt.le
              · exact hsame.le
          -- the cursor is behind the continuation and before the next entry
          have hcursor := h.cursor_le List.mem_cons_self
          have hbehind := Place.le_revision hprogress.behind
          rw [hrevision] at hbehind
          exact absurd (le_antisymm (hbehind.trans hcursor) (hnext.trans hle)) hother
      · intro _
        rw [← hrevision]
        exact Place.lt_whole hmoved

/-- A page that reached the end of the log. -/
theorem Scanned.exhausted {w : Walk ρ} {r r' : Reading ρ} {done : List LogEntry}
    (h : Scanned rows checks filter start tombstone w r r' done [])
    (hkept : Kept rows checks filter start w) (hfew : done.length < LOG_BATCH) :
    Turns rows checks filter start w ((w.observed ⟨r.context, tombstone, w.collection⟩).answer
      (.page r'.rows (.whole w.collection.revision) false r'.withheld) none) := by
  obtain ⟨begun, hbegun⟩ := h.begun hkept
  have hwhole : placeOf w.checkpoints (.whole w.collection.revision) =
      some ⟨w.collection.revision, ""⟩ := rfl
  refine h.turns hkept hbegun hwhole (le_refl _) ?_ ?_
  · intro change hpending _
    have hbatch := h.batch
    rw [changes_batch, List.append_nil] at hbatch
    have hall : (pending w.collection r.cursor).length ≤ LOG_BATCH := by
      by_contra hmore
      have hlength := congrArg List.length hbatch
      rw [List.length_map, List.length_take] at hlength
      omega
    rw [List.take_of_length_le hall] at hbatch
    rw [← hbatch, List.map_map]
    exact List.mem_map.mpr ⟨change, hpending, rfl⟩
  · exact fun hmore => nomatch hmore

/-- A page that stops after `MAX_LOG_ENTRIES` entries, at a checkpoint or at its continuation. -/
theorem Scanned.stopped {w : Walk ρ} {r r' : Reading ρ} {done : List LogEntry}
    (h : Scanned rows checks filter start tombstone w r r' done [])
    (hkept : Kept rows checks filter start w) (hsome : done ≠ []) (tokenOf : Place → String) :
    (r'.cursor ≠ r'.continuationCursor →
      Turns rows checks filter start w ((w.observed ⟨r.context, tombstone, w.collection⟩).answer
        (.page r'.rows (.inside r'.cursor.revision ("x:" ++ tokenOf r'.cursor)) true r'.withheld)
        (some (tokenOf r'.cursor, r'.cursor)))) ∧
    (r'.cursor = r'.continuationCursor →
      Turns rows checks filter start w ((w.observed ⟨r.context, tombstone, w.collection⟩).answer
        (.page r'.rows r'.continuation true r'.withheld) none)) := by
  obtain ⟨begun, hbegun⟩ := h.begun hkept
  have hprogress := hbegun.progress
  have hmoved : begun.lt r'.cursor := by
    obtain ⟨last, hlast⟩ := Option.isSome_iff_exists.mp (List.getLast?_isSome.mpr hsome)
    obtain ⟨begun', hbegun', -⟩ := hkept.reading r h.reading
    have hsame : begun' = begun := Option.some.inj (hbegun'.place.symm.trans hbegun.place)
    have hmem := List.mem_append_left [] (List.mem_of_getLast? hlast)
    rw [(scan_of_ok h.scan).cursor, hlast]
    rw [← hsame]
    exact Place.lt_of_before (h.sayable hkept hbegun'.progress.passed hmem).after
  constructor
  · intro _
    refine h.turns hkept hbegun ?_ hbegun.within (h.passed hkept (Place.le_refl _)) (fun _ => hmoved)
    have hbehind : behind 'x' ':' ("x:" ++ tokenOf r'.cursor) = some (tokenOf r'.cursor) :=
      behind_append 'x' ':' _
    unfold placeOf
    dsimp only
    rw [hbehind]
    dsimp only [Walk.answer]
    rw [Entries.at?_set, if_pos rfl, Option.filter_some, if_pos (decide_eq_true rfl)]
  · intro hsame
    refine h.turns hkept hbegun ?_ hbegun.within (h.passed hkept (Place.le_refl _)) (fun _ => hmoved)
    rw [hsame]
    exact hprogress.continuation

/-! ### Runs -/

end Runs

/-! ### A walk past a malformed row -/

/-- A shared task under one of two ids, of which the second is none that the wire accepts. -/
def boardTask (id : String) : BoardTask Unit where
  id := id
  project := "repo-00000000000000000000000000000000"
  status := .inbox
  text := "Task"
  details := none
  chosen := false
  color := none
  icon := none
  priority := none
  placement := .auto
  pos := none
  workLinks := none
  machine := none
  handover := none
  ownReview := none
  prototypeReviewReplica := none
  board := none
  boardAutoHidden := false
  boardChoice := false
  findingKey := none
  proactive := false
  createdAt := ⟨"2026-01-01T00:00:00.000Z", none⟩
  updatedAt := ⟨"2026-01-01T00:00:00.000Z", none⟩
  sync := none
  rest := ()

def taskId (legacy : Bool) : String :=
  if legacy then "task-1" else "00000000-0000-0000-0000-000000000000"

end Delegatus.TaskFeed
