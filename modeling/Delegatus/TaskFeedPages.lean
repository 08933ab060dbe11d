import Delegatus.TaskFeed
import Mathlib

/-!
# What one page reads

A batch holds the entries after the cursor in order, so the entries scanned so far are those that the
cursor has passed (`Scan.passed`).  Each of them gave its row to the page, unless the row is malformed
(`Scan.told`), and the continuation is a place that the cursor has passed, strictly behind the start once
the page holds a row (`Scan.progress`): only rows with short ids are well formed.
-/

namespace Delegatus.TaskFeed

open LinkedBoards StateStore
open JsonText (Text)

variable {ρ τ : Type}

/-! ### Places -/

theorem Place.before_iff {place : Place} {change : Change String} :
    place.before change = true ↔ place.revision < change.revision ∨
      (place.key ≠ "" ∧ change.revision = place.revision ∧ place.key < change.rowKey) := by
  simp [Place.before, and_assoc]

/-- The place has passed every entry that the other has passed. -/
def Place.le (a b : Place) : Prop :=
  ∀ change : Change String, b.before change = true → a.before change = true

theorem Place.le_refl (a : Place) : a.le a := fun _ h => h

theorem Place.le.trans {a b c : Place} (h : a.le b) (h' : b.le c) : a.le c :=
  fun change hafter => h change (h' change hafter)

/-- The place of an entry. -/
def placeAt (change : Change String) : Place := ⟨change.revision, change.rowKey⟩

/-- A place is passed by the entries behind it. -/
theorem Place.le_of_before {place : Place} {change : Change String} (h : place.before change = true) :
    place.le (placeAt change) := by
  intro other hafter
  rw [Place.before_iff] at h hafter ⊢
  simp only [placeAt] at hafter
  rcases h with hlt | ⟨hsome, hsame, hlt⟩
  · left
    omega
  · rcases hafter with hlater | ⟨-, hstamp, hlater⟩
    · left
      omega
    · exact Or.inr ⟨hsome, hstamp.trans hsame, hlt.trans hlater⟩

/-- Ordered entries have ordered places. -/
theorem Place.le_of_changeBefore {a b : Change String} (h : changeBefore a b) (hkey : a.rowKey ≠ "") :
    (placeAt a).le (placeAt b) := by
  intro other hafter
  rw [Place.before_iff] at hafter ⊢
  simp only [placeAt] at hafter ⊢
  rcases h with hlt | ⟨hsame, hle⟩
  · left
    rcases hafter with hlater | ⟨-, hstamp, -⟩ <;> omega
  · rcases hafter with hlater | ⟨hsome, hstamp, hlater⟩
    · left
      omega
    · exact Or.inr ⟨hkey, hstamp.trans hsame.symm, hle.trans_lt hlater⟩

/-- The place moves on. -/
def Place.lt (a b : Place) : Prop :=
  a.revision < b.revision ∨ (a.revision = b.revision ∧ a.key ≠ "" ∧ (b.key = "" ∨ a.key < b.key))

theorem Place.lt_of_before {place : Place} {change : Change String} (h : place.before change = true) :
    place.lt (placeAt change) := by
  rcases Place.before_iff.mp h with hlt | ⟨hsome, hsame, hlt⟩
  · exact Or.inl hlt
  · exact Or.inr ⟨hsame.symm, hsome, Or.inr hlt⟩

/-- The end of a revision is behind its keys. -/
theorem Place.lt_whole {a : Place} {revision : Nat} {key : String} (h : a.lt ⟨revision, key⟩) :
    a.lt ⟨revision, ""⟩ := by
  rcases h with hlt | ⟨hsame, hsome, -⟩
  · exact Or.inl hlt
  · exact Or.inr ⟨hsame, hsome, Or.inl rfl⟩

/-! ### Batches -/

theorem changeBefore_trans {a b c : Change String} (h : changeBefore a b) (h' : changeBefore b c) :
    changeBefore a c := by
  rcases h with hlt | ⟨hsame, hle⟩ <;> rcases h' with hlt' | ⟨hsame', hle'⟩
  · exact Or.inl (hlt.trans hlt')
  · exact Or.inl (hsame' ▸ hlt)
  · exact Or.inl (hsame ▸ hlt')
  · exact Or.inr ⟨hsame.trans hsame', hle.trans hle'⟩

theorem changeBefore_total (a b : Change String) : changeBefore a b ∨ changeBefore b a := by
  rcases Nat.lt_trichotomy a.revision b.revision with hlt | hsame | hlt
  · exact Or.inl (Or.inl hlt)
  · rcases le_total a.rowKey b.rowKey with hle | hle
    · exact Or.inl (Or.inr ⟨hsame, hle⟩)
    · exact Or.inr (Or.inr ⟨hsame.symm, hle⟩)
  · exact Or.inr (Or.inl hlt)

/-- The entries of the log after a place, in order. -/
def pending (c : Collection String) (place : Place) : List (Change String) :=
  (c.changes.filter fun change => place.before change && change.revision ≤ c.revision).insertionSort
    changeBefore

theorem mem_pending {c : Collection String} {place : Place} {change : Change String} :
    change ∈ pending c place ↔
      change ∈ c.changes ∧ place.before change = true ∧ change.revision ≤ c.revision := by
  rw [pending, List.mem_insertionSort, List.mem_filter, Bool.and_eq_true, decide_eq_true_eq]

theorem pending_ordered (c : Collection String) (place : Place) :
    (pending c place).Pairwise changeBefore := by
  have : Std.Total (@changeBefore String _) := ⟨changeBefore_total⟩
  have : IsTrans (Change String) changeBefore := ⟨fun _ _ _ => changeBefore_trans⟩
  exact List.pairwise_insertionSort _ _

/-- The batch is the first of the pending entries. -/
theorem changes_batch (c : Collection String) (place : Place) (limit : Nat) :
    (changesAfter c place limit).entries =
      ((pending c place).take limit).map fun change => ⟨change, c.rows.get? change.rowKey⟩ := by
  unfold changesAfter
  dsimp only
  split
  · next hidle =>
    have hnone : pending c place = [] := by
      rw [List.eq_nil_iff_forall_not_mem]
      intro change hchange
      obtain ⟨-, hbefore, hle⟩ := mem_pending.mp hchange
      rcases Place.before_iff.mp hbefore with hlt | ⟨hsome, -⟩
      · omega
      · exact hsome hidle.2
    rw [hnone, List.take_nil, List.map_nil]
  · rfl

/-! ### Ids and keys -/

theorem length_of_fits {pattern text : List Char} (h : fits pattern text = true) :
    text.length = pattern.length := by
  induction pattern, text using fits.induct with
  | case1 => rfl
  | case2 pattern c text ih =>
    rw [fits, Bool.and_eq_true] at h
    rw [List.length_cons, List.length_cons, ih h.2]
  | case3 p pattern c text hx ih =>
    rw [fits, Bool.and_eq_true] at h
    · rw [List.length_cons, List.length_cons, ih h.2]
    · exact hx
  | case4 pattern text hnil hx hcons =>
    rw [fits.eq_def] at h
    split at h
    · exact absurd rfl (hnil rfl)
    · exact (hx _ _ _ rfl rfl).elim
    · exact (hcons _ _ _ _ rfl rfl).elim
    · exact nomatch h

theorem isHexDigit_small {c : Char} (h : isHexDigit c = true) : c.toNat < 0x10000 := by
  rw [isHexDigit, Bool.or_eq_true, Bool.and_eq_true, decide_eq_true_eq, decide_eq_true_eq] at h
  rcases h with hdigit | ⟨-, hle⟩
  · rw [Char.isDigit, Bool.and_eq_true, decide_eq_true_eq, decide_eq_true_eq] at hdigit
    exact lt_of_le_of_lt hdigit.2 (by decide)
  · exact lt_of_le_of_lt hle (by decide)

theorem small_of_fits {pattern text : List Char} (hpattern : ∀ c ∈ pattern, c.toNat < 0x10000)
    (h : fits pattern text = true) : ∀ c ∈ text, c.toNat < 0x10000 := by
  induction pattern, text using fits.induct with
  | case1 => exact fun c hc => nomatch hc
  | case2 pattern c text ih =>
    rw [fits, Bool.and_eq_true] at h
    intro d hd
    rcases List.mem_cons.mp hd with rfl | hrest
    · exact isHexDigit_small h.1
    · exact ih (fun e he => hpattern e (List.mem_cons_of_mem _ he)) h.2 d hrest
  | case3 p pattern c text hx ih =>
    rw [fits, Bool.and_eq_true, decide_eq_true_eq] at h
    · intro d hd
      rcases List.mem_cons.mp hd with rfl | hrest
      · rw [← h.1]
        exact hpattern p List.mem_cons_self
      · exact ih (fun e he => hpattern e (List.mem_cons_of_mem _ he)) h.2 d hrest
    · exact hx
  | case4 pattern text hnil hx hcons =>
    have hlength := length_of_fits h
    cases text with
    | nil => exact fun c hc => nomatch hc
    | cons c text =>
      cases pattern with
      | nil => exact nomatch hlength
      | cons p pattern => exact (hcons _ _ _ _ rfl rfl).elim

theorem length_units {text : List Char} (h : ∀ c ∈ text, c.toNat < 0x10000) :
    (text.flatMap JsStrings.charUnits).length = text.length := by
  induction text with
  | nil => rfl
  | cons c rest ih =>
    rw [List.flatMap_cons, List.length_append, ih fun d hd => h d (List.mem_cons_of_mem _ hd),
      JsStrings.charUnits, if_pos (h c List.mem_cons_self), List.length_cons, List.length_cons,
      List.length_nil, Nat.add_comm]

/-- A task's key with an id that the wire accepts is a position. -/
theorem isPositionKey_of_uuid {id : String} (h : isUuid id = true) :
    isPositionKey ("t:" ++ id) = true := by
  have hlength : id.toList.length = 36 := length_of_fits h
  have hpattern : "xxxxxxxx-xxxx-xxxx-xxxx-xxxxxxxxxxxx".toList.all
      (fun c => decide (c.toNat < 0x10000)) = true := by
    decide
  have hsmall : ∀ c ∈ id.toList, c.toNat < 0x10000 :=
    small_of_fits (fun c hc => of_decide_eq_true (List.all_eq_true.mp hpattern c hc)) h
  have hchars : ("t:" ++ id).toList = 't' :: ':' :: id.toList := by simp
  have hunits : (JsonText.units ("t:" ++ id)).length = 38 := by
    rw [JsonText.units, List.length_map, JsStrings.codeUnits, hchars, length_units, List.length_cons,
      List.length_cons, hlength]
    intro c hc
    rcases List.mem_cons.mp hc with rfl | hc
    · decide
    · rcases List.mem_cons.mp hc with rfl | hc
      · decide
      · exact hsmall c hc
  rw [isPositionKey, hunits]
  rfl

theorem behind_append (first second : Char) (text : String) :
    behind first second (String.ofList [first, second] ++ text) = some text := by
  simp [behind]

theorem of_behind {first second : Char} {key id : String} (h : behind first second key = some id) :
    key = String.ofList [first, second] ++ id := by
  unfold behind at h
  split at h
  · next a b rest hchars =>
    split_ifs at h with hsame
    obtain rfl := Option.some.inj h
    rw [← String.toList_inj]
    simp [hchars, hsame.1, hsame.2]
  · exact nomatch h

/-! ### One entry -/

/-- The bounds of a page; a single row may be longer. -/
def Fits (rows : List (WireRow × Nat)) : Prop :=
  rows.length ≤ PAGE_ROWS ∧ (rows.length ≤ 1 ∨ (rows.map (·.2)).sum ≤ PAGE_BYTES)

section Scans

variable {rows : TaskRows ρ τ} {checks : FeedChecks} {filter : FeedFilter}
  {tombstone : String → Option TaskTombstone}

/-- What one entry adds to the page. -/
structure AddsEntry (rows : TaskRows ρ τ) (checks : FeedChecks) (filter : FeedFilter)
    (tombstone : String → Option TaskTombstone) (r : Reading ρ) (entry : LogEntry) (r' : Reading ρ) :
    Prop where
  context : r'.context = r.context
  cursor : r'.cursor = r.cursor
  continuation : r'.continuation = r.continuation
  continuationCursor : r'.continuationCursor = r.continuationCursor
  scanned : r'.scanned = r.scanned
  page : r'.rows = r.rows ∨ ∃ row, rowOf rows checks filter r.context tombstone entry = some row ∧
    wellFormed checks row.row = true ∧ r'.rows = r.rows ++ [(row.row, row.bytes)]
  fits : Fits r.rows → Fits r'.rows
  told : ∀ row, rowOf rows checks filter r.context tombstone entry = some row →
    row.row ∈ r'.rows.map Prod.fst ∨ wellFormed checks row.row = false

theorem addEntry_some {r r' : Reading ρ} {entry : LogEntry}
    (h : addEntry rows checks filter tombstone r entry = some r') :
    AddsEntry rows checks filter tombstone r entry r' := by
  unfold addEntry at h
  cases hrow : rowOf rows checks filter r.context tombstone entry with
  | none =>
    rw [hrow] at h
    obtain rfl := Option.some.inj h
    refine ⟨rfl, rfl, rfl, rfl, rfl, Or.inl rfl, id, ?_⟩
    intro row hsome
    rw [hrow] at hsome
    exact nomatch hsome
  | some row =>
    rw [hrow] at h
    unfold addRow at h
    dsimp only at h
    by_cases hmalformed : wellFormed checks row.row = true
    case neg =>
      rw [Bool.not_eq_true] at hmalformed
      rw [hmalformed, Bool.not_false, if_pos rfl] at h
      obtain rfl := Option.some.inj h
      refine ⟨rfl, rfl, rfl, rfl, rfl, Or.inl rfl, id, ?_⟩
      intro other hother
      rw [hrow] at hother
      obtain rfl := Option.some.inj hother
      exact Or.inr hmalformed
    case pos =>
      rw [hmalformed, Bool.not_true, if_neg Bool.false_ne_true] at h
      split at h
      · exact nomatch h
      next hfull =>
      obtain rfl := Option.some.inj h
      refine ⟨rfl, rfl, rfl, rfl, rfl, Or.inr ⟨row, hrow, hmalformed, rfl⟩, ?_, ?_⟩
      · rintro -
        simp only [Bool.or_eq_true, Bool.and_eq_true, decide_eq_true_eq, not_or, not_and,
          not_le, not_lt] at hfull
        obtain ⟨hfew, hbytes⟩ := hfull
        refine ⟨?_, ?_⟩
        · rw [List.length_append, List.length_singleton]
          exact hfew
        · rcases Nat.eq_zero_or_pos r.rows.length with hzero | hpos
          · left
            rw [List.length_append, List.length_singleton, hzero]
          · right
            rw [List.map_append, List.sum_append, List.map_singleton, List.sum_singleton]
            exact hbytes hpos
      · intro other hother
        rw [hrow] at hother
        obtain rfl := Option.some.inj hother
        left
        simp

/-- What the entries scanned so far leave. -/
structure Scan (rows : TaskRows ρ τ) (checks : FeedChecks) (filter : FeedFilter)
    (tombstone : String → Option TaskTombstone) (r : Reading ρ) (done : List LogEntry) (r' : Reading ρ) :
    Prop where
  context : r'.context = r.context
  kept : ∀ row ∈ r.rows, row ∈ r'.rows
  cursor : r'.cursor = (done.getLast?.map fun entry => placeAt entry.change).getD r.cursor
  scanned : r'.scanned = r.scanned + done.length
  fits : Fits r.rows → Fits r'.rows
  told : ∀ entry ∈ done, ∀ row, rowOf rows checks filter r.context tombstone entry = some row →
    row.row ∈ r'.rows.map Prod.fst ∨ wellFormed checks row.row = false

theorem scan_of_ok {r r' : Reading ρ} {done : List LogEntry}
    (h : scanEntries rows checks filter tombstone r done = .ok r') :
    Scan rows checks filter tombstone r done r' := by
  induction done generalizing r with
  | nil =>
    obtain rfl := Except.ok.inj h
    exact ⟨rfl, fun _ hrow => hrow, rfl, rfl, id, fun _ hentry => nomatch hentry⟩
  | cons entry rest ih =>
    unfold scanEntries at h
    cases hadd : addEntry rows checks filter tombstone r entry with
    | none =>
      rw [hadd] at h
      exact nomatch h
    | some mid =>
      rw [hadd] at h
      have hentry := addEntry_some hadd
      have hrest := ih h
      have hgrown : ∀ row ∈ r.rows, row ∈ mid.rows := by
        intro row hrow
        rcases hentry.page with hsame | ⟨_, _, _, hmore⟩
        · rwa [hsame]
        · rw [hmore]
          exact List.mem_append_left _ hrow
      refine ⟨hrest.context.trans hentry.context, ?_, ?_, ?_, ?_, ?_⟩
      · exact fun row hrow => hrest.kept row (hgrown row hrow)
      · rw [hrest.cursor, List.getLast?_cons]
        cases rest.getLast? <;> rfl
      · rw [hrest.scanned]
        change mid.scanned + 1 + rest.length = _
        rw [hentry.scanned, List.length_cons]
        omega
      · exact fun hfits => hrest.fits (hentry.fits hfits)
      · intro other hother row hrow
        rcases List.mem_cons.mp hother with rfl | hother
        · rcases hentry.told row hrow with hmem | hmalformed
          · left
            obtain ⟨pair, hpair, hfst⟩ := List.mem_map.mp hmem
            exact List.mem_map.mpr ⟨pair, hrest.kept pair hpair, hfst⟩
          · exact Or.inr hmalformed
        · apply hrest.told other hother row
          change rowOf rows checks filter mid.context tombstone other = some row
          rw [hentry.context]
          exact hrow

/-- The places of a page that started at `start`. -/
structure Progress (checkpoints : Entries String Place) (start : Place) (r : Reading ρ) : Prop where
  passed : start.le r.cursor
  behind : r.continuationCursor.le r.cursor
  continuation : placeOf checkpoints r.continuation = some r.continuationCursor
  moved : r.continuationCursor = start ∨ start.lt r.continuationCursor
  page : r.rows ≠ [] → start.lt r.continuationCursor

/-- An entry that a page can stop at: it is after the start, its key is no token, and a well formed row
of it has a short key. -/
structure Sayable (rows : TaskRows ρ τ) (checks : FeedChecks) (filter : FeedFilter)
    (tombstone : String → Option TaskTombstone) (context : PageContext ρ) (start : Place)
    (entry : LogEntry) : Prop where
  after : start.before entry.change = true
  named : entry.change.rowKey ≠ ""
  token : TaskFeed.behind 'x' ':' entry.change.rowKey = none
  short : ∀ row, rowOf rows checks filter context tombstone entry = some row →
    wellFormed checks row.row = true → isPositionKey entry.change.rowKey = true

theorem Progress.scan {checkpoints : Entries String Place} {start : Place} {r r' : Reading ρ}
    {done : List LogEntry} (hr : Progress checkpoints start r)
    (h : scanEntries rows checks filter tombstone r done = .ok r')
    (hordered : (done.map LogEntry.change).Pairwise changeBefore)
    (hnext : ∀ entry ∈ done, r.cursor.le (placeAt entry.change))
    (hsayable : ∀ entry ∈ done, Sayable rows checks filter tombstone r.context start entry) :
    Progress checkpoints start r' := by
  induction done generalizing r with
  | nil =>
    obtain rfl := Except.ok.inj h
    exact hr
  | cons entry rest ih =>
    unfold scanEntries at h
    cases hadd : addEntry rows checks filter tombstone r entry with
    | none =>
      rw [hadd] at h
      exact nomatch h
    | some mid =>
      rw [hadd] at h
      have hentry := addEntry_some hadd
      obtain ⟨hafter, hnamed, htoken, hshort⟩ := hsayable entry List.mem_cons_self
      have hmoved := Place.lt_of_before hafter
      rw [List.map_cons, List.pairwise_cons] at hordered
      apply ih ?_ h hordered.2
      · intro other hother
        exact Place.le_of_changeBefore (hordered.1 _ (List.mem_map_of_mem hother)) hnamed
      · intro other hother
        change Sayable rows checks filter tombstone mid.context start other
        rw [hentry.context]
        exact hsayable other (List.mem_cons_of_mem _ hother)
      · cases hposition : isPositionKey entry.change.rowKey with
        | true =>
          refine ⟨Place.le_of_before hafter, ?_, ?_, ?_, ?_⟩
          · simp only [Reading.advance, hposition, if_pos]
            exact Place.le_refl _
          · simp only [Reading.advance, hposition, if_pos, placeOf, htoken]
          · simp only [Reading.advance, hposition, if_pos]
            exact Or.inr hmoved
          · simp only [Reading.advance, hposition, if_pos]
            exact fun _ => hmoved
        | false =>
          have hsame : mid.rows = r.rows := by
            rcases hentry.page with hsame | ⟨row, hrow, hwell, -⟩
            · exact hsame
            · rw [hshort row hrow hwell] at hposition
              exact nomatch hposition
          simp only [Reading.advance, hposition, Bool.false_eq_true, if_false, hentry.continuation,
            hentry.continuationCursor, hsame]
          refine ⟨Place.le_of_before hafter, ?_, hr.continuation, hr.moved, hr.page⟩
          exact hr.behind.trans (hnext entry List.mem_cons_self)

end Scans

end Delegatus.TaskFeed
