import Delegatus.AgentFeedReceiver
import Delegatus.Refusals

/-!
# The agent feed and its receiver converge

`Chronicle` is what the sender keeps: the rows that it had at each version of which a cursor may be
out, and that a reader at such a version will hear of what changed since.  `Exchange.Sound` adds the
receiver: its rows are current at its cursor, the gathered rows are a part of the snapshot that they
are of, and the answer in flight continues one or the other.

The receiver bounds its rows after each page of changes, also in the middle of changes that were cut
into pages.  A row that the bounds drop there, while the sender holds it unchanged, is never sent
again (`dropped_in_the_middle`).  Where the bounds drop no such row (`Spares`), what an answer leaves
that has no more is the rows of the sender (`exchange_converges`).
-/

namespace Delegatus.AgentFeed

open CompactedFeeds Refusals

variable {γ : Type*} {projects : List String}

/-! ### The sender over time -/

/-- The rows of each version that a cursor may name. -/
abbrev History (γ : Type*) := ℕ → Option (List (Row γ))

structure Chronicle (projects : List String) (history : History γ) (feed : Feed γ) (clock : Int) : Prop where
  sound : feed.Sound clock
  fits : Fits projects feed.current
  now : history feed.version = some (snapshotRows feed)
  version_le : ∀ version rows, history version = some rows → version ≤ feed.version
  past_fits : ∀ version rows, history version = some rows → Fits projects rows
  past : ∀ version rows, history version = some rows →
    ∀ k, Current (view feed) version k (lookup rows k)
  snapshot : ∀ snapshot, feed.resetSnapshot = some snapshot →
    history snapshot.cursor.version = some snapshot.rows ∧ snapshot.cursor.epoch = feed.epoch

/-- The history with the version that the feed has now. -/
def record (history : History γ) (feed : Feed γ) : History γ := fun version =>
  if version = feed.version then some (snapshotRows feed) else history version

theorem lookup_snapshotRows (feed : Feed γ) (k : Key) : lookup (snapshotRows feed) k = feed.row? k := by
  have hperm := snapshotRows_perm feed
  rw [← lookup_current]
  exact lookup_perm ((hperm.map Row.k).nodup_iff.mpr (current_nodup feed)) hperm k

/-- A version that was recorded keeps its rows. -/
theorem Chronicle.record_extends {history : History γ} {feed feed' : Feed γ} {clock : Int}
    (h : Chronicle projects history feed clock) (hevolves : Evolves feed feed') {version : ℕ}
    {rows : List (Row γ)} (hrows : history version = some rows) : record history feed' version = some rows := by
  unfold record
  split
  · next hversion =>
    have hle := h.version_le version rows hrows
    have hgrows : feed.version ≤ feed'.version := hevolves.grows.version_le
    have hsame : version = feed.version := by omega
    have hunchanged := hevolves.unchanged (by omega)
    have hnow := h.now
    rw [← hsame, hrows] at hnow
    rw [hnow, snapshotRows, snapshotRows, hunchanged]
  · exact hrows

section

variable [DecidableEq γ]

theorem Chronicle.refresh {history : History γ} {feed : Feed γ} {clock now : Int}
    (h : Chronicle projects history feed clock) (hnow : clock ≤ now) (sources : Option (Sources γ projects)) :
    Chronicle projects (record history (refresh feed now sources)) (refresh feed now sources) now := by
  obtain ⟨hsound, hevolves, -⟩ := refresh_spec h.sound hnow sources
  have hfits := refresh_fits h.sound hnow h.fits sources
  generalize AgentFeed.refresh feed now sources = feed' at *
  refine ⟨hsound, hfits, if_pos rfl, ?_, ?_, ?_, ?_⟩
  · intro version rows hrows
    unfold record at hrows
    split at hrows
    · next hversion => exact hversion.le
    · exact (h.version_le version rows hrows).trans hevolves.grows.version_le
  · intro version rows hrows
    unfold record at hrows
    split at hrows
    · obtain rfl := Option.some.inj hrows
      exact hfits.perm (snapshotRows_perm feed')
    · exact h.past_fits version rows hrows
  · intro version rows hrows k
    unfold record at hrows
    split at hrows
    · obtain rfl := Option.some.inj hrows
      rw [lookup_snapshotRows]
      exact current_contents (view feed') version k
    · exact hevolves.grows.current (h.version_le version rows hrows) (h.past version rows hrows k)
  · intro snapshot hsnapshot
    rcases hevolves.snapshot with hsame | hnone
    · obtain ⟨hrows, hepoch⟩ := h.snapshot snapshot (hsame ▸ hsnapshot)
      exact ⟨h.record_extends hevolves hrows, hepoch.trans hevolves.epoch.symm⟩
    · rw [hnone] at hsnapshot
      exact nomatch hsnapshot

end

theorem Feed.Sound.keep {feed : Feed γ} {clock : Int} (h : feed.Sound clock) (kept : Option (Snapshot γ)) :
    ({ feed with resetSnapshot := kept } : Feed γ).Sound clock := ⟨h.1, h.2, h.3, h.4, h.5, h.6, h.7, h.8, h.9, h.10⟩

theorem Chronicle.keep {history : History γ} {feed : Feed γ} {clock : Int}
    (h : Chronicle projects history feed clock) (kept : Option (Snapshot γ))
    (hkept : ∀ snapshot, kept = some snapshot →
      history snapshot.cursor.version = some snapshot.rows ∧ snapshot.cursor.epoch = feed.epoch) :
    Chronicle projects history { feed with resetSnapshot := kept } clock :=
  ⟨h.sound.keep kept, h.fits, h.now, h.version_le, h.past_fits, h.past, hkept⟩

/-! ### The exchange -/

/-- The held rows are current at the cursor. -/
structure Met (feed : Feed γ) (held : Held γ) (cursor : Cursor) : Prop where
  epoch : cursor.epoch = feed.epoch
  version_le : cursor.version ≤ feed.version
  current : ∀ k, Current (view feed) cursor.version k (held.rows.row? k)

theorem Met.keep {feed : Feed γ} {held : Held γ} {cursor : Cursor} (h : Met feed held cursor)
    (kept : Option (Snapshot γ)) : Met { feed with resetSnapshot := kept } held cursor :=
  ⟨h.epoch, h.version_le, h.current⟩

/-- What the answer in flight is, before it is accepted and after. -/
inductive Answered (projects : List String) (history : History γ) (s : Exchange γ) (part : Part γ) : Prop
  /-- Entries that bring the held rows to the cursor. -/
  | changes (reset : part.reset = false) (gathering : s.held.reset = none)
      (epoch : part.cursor.epoch = s.feed.epoch) (version_le : part.cursor.version ≤ s.feed.version)
      (shared : ∀ change ∈ part.rows, SharedChange projects change)
      (current : ∀ k, (∀ value, Current (view s.feed) part.cursor.version k (part.rows.foldl (hear k) value)) ∨
        ((∀ value, part.rows.foldl (hear k) value = value) ∧
          Current (view s.feed) part.cursor.version k (s.held.rows.row? k)))
  /-- The rows of a snapshot from the one at `n`; those before it are gathered. -/
  | page (n : ℕ) (all rows rest : List (Row γ)) (recorded : history part.cursor.version = some all)
      (epoch : part.cursor.epoch = s.feed.epoch) (split : all.drop n = rows ++ rest)
      (rows_eq : part.rows = rows.map Change.put) (more : part.more = decide (rest ≠ []))
      (reset : part.reset = decide (n = 0)) (needs : part.more = true → needsReset s.feed s.pull = true)
      (place : n = 0 ∨ ∃ reset, s.held.reset = some reset ∧ (reset.cursor = part.cursor →
        reset.rows.all.Perm (all.take n) ∨ reset.rows.all.Perm (all.take (n + rows.length))))

structure Exchange.Sound (projects : List String) (history : History γ) (s : Exchange γ) : Prop where
  chronicle : Chronicle projects history s.feed s.clock
  shared : s.held.rows.Shared projects
  pull : ∀ cursor, s.pull = some cursor → Met s.feed s.held cursor
  /-- Rows are gathered while the cursor is of no use. -/
  gathering : ∀ reset, s.held.reset = some reset → needsReset s.feed s.pull = true
  gathered : ∀ reset, s.held.reset = some reset →
    ∃ all n, history reset.cursor.version = some all ∧ reset.rows.all.Perm (all.take n)
  answer : ∀ part, s.answer = some part → Answered projects history s part
  accepted : ∀ part, s.accepted = some part → part.more = false → s.pull = some part.cursor

theorem sound_initial (epoch : String) :
    (initial epoch : Exchange γ).Sound projects (record (fun _ => none) (newFeed epoch)) where
  chronicle :=
    { sound := ⟨(fun _ h => nomatch h), (fun _ h => nomatch h), (fun _ h => nomatch h), List.Pairwise.nil,
        (fun _ h => nomatch h), (fun _ h => nomatch h), Nat.le_refl _, Or.inl rfl, List.Pairwise.nil,
        (fun _ h => nomatch h)⟩
      fits := ⟨List.nodup_nil, (fun _ h => nomatch h), Nat.zero_le _, fun _ => Nat.zero_le _, Nat.zero_le _⟩
      now := if_pos rfl
      version_le := by
        intro version rows hrows
        unfold record at hrows
        split at hrows
        · next hversion => exact hversion.le
        · exact nomatch hrows
      past_fits := by
        intro version rows hrows
        unfold record at hrows
        split at hrows
        · obtain rfl := Option.some.inj hrows
          exact ⟨List.nodup_nil, (fun _ h => nomatch h), Nat.zero_le _, fun _ => Nat.zero_le _, Nat.zero_le _⟩
        · exact nomatch hrows
      past := by
        intro version rows hrows k
        unfold record at hrows
        split at hrows
        · obtain rfl := Option.some.inj hrows
          exact Or.inl rfl
        · exact nomatch hrows
      snapshot := fun _ h => nomatch h }
  shared _ h := nomatch h
  pull _ h := nomatch h
  gathering _ h := nomatch h
  gathered _ h := nomatch h
  answer _ h := nomatch h
  accepted _ h := nomatch h

/-! ### Refreshing and asking -/

/-- A cursor that is of no use stays so. -/
theorem needsReset_evolves {feed feed' : Feed γ} (h : Evolves feed feed') {pull : Option Cursor}
    (hpull : ∀ cursor, pull = some cursor → cursor.version ≤ feed.version)
    (hneeds : needsReset feed pull = true) : needsReset feed' pull = true := by
  cases pull with
  | none => rfl
  | some cursor =>
    have hle := hpull cursor rfl
    have hfloor := h.floor_le
    unfold needsReset at hneeds ⊢
    simp only [Bool.or_eq_true, decide_eq_true_eq] at hneeds ⊢
    rw [h.epoch]
    rcases hneeds with (hother | hlost) | hahead
    · exact Or.inl (Or.inl hother)
    · exact Or.inl (Or.inr (by omega))
    · omega

theorem Exchange.Sound.evolve {history history' : History γ} {s : Exchange γ} (h : s.Sound projects history)
    {feed' : Feed γ} {now : Int} (hevolves : Evolves s.feed feed')
    (hchronicle : Chronicle projects history' feed' now)
    (hextends : ∀ version rows, history version = some rows → history' version = some rows) :
    ({ s with feed := feed', clock := now } : Exchange γ).Sound projects history' where
  chronicle := hchronicle
  shared := h.shared
  pull cursor hcursor := by
    have hmet := h.pull cursor hcursor
    exact ⟨hmet.epoch.trans hevolves.epoch.symm, hmet.version_le.trans hevolves.grows.version_le,
      fun k => hevolves.grows.current hmet.version_le (hmet.current k)⟩
  gathering reset hreset := needsReset_evolves hevolves (fun cursor hcursor => (h.pull cursor hcursor).version_le)
    (h.gathering reset hreset)
  gathered reset hreset := by
    obtain ⟨all, n, hrecorded, hperm⟩ := h.gathered reset hreset
    exact ⟨all, n, hextends _ _ hrecorded, hperm⟩
  answer part hpart := by
    cases h.answer part hpart with
    | changes reset gathering epoch version_le shared current =>
      refine .changes reset gathering (epoch.trans hevolves.epoch.symm)
        (version_le.trans hevolves.grows.version_le) shared fun k => ?_
      have hgrows := fun {value} => @Grows.current _ _ _ _ hevolves.grows _ version_le k value
      rcases current k with hheard | ⟨hsame, hcurrent⟩
      · exact Or.inl fun value => hgrows (hheard value)
      · exact Or.inr ⟨hsame, hgrows hcurrent⟩
    | page n all rows rest recorded epoch split rows_eq more reset needs place =>
      exact .page n all rows rest (hextends _ _ recorded) (epoch.trans hevolves.epoch.symm) split rows_eq
        more reset (fun hmore => needsReset_evolves hevolves
          (fun cursor hcursor => (h.pull cursor hcursor).version_le) (needs hmore)) place
  accepted := h.accepted

/-- What a page of a snapshot is. -/
theorem resetPage_spec (bytes : Change γ → ℕ) {history : History γ} {feed : Feed γ} {clock : Int}
    (h : Chronicle projects history feed clock) (after : Option Cursor) (offset : ℕ) :
    ∃ n all rows rest, ∃ kept : Option (Snapshot γ),
      (resetPage bytes feed after offset).1 = { feed with resetSnapshot := kept } ∧
      (∀ snapshot, kept = some snapshot →
        history snapshot.cursor.version = some snapshot.rows ∧ snapshot.cursor.epoch = feed.epoch) ∧
      history (resetPage bytes feed after offset).2.cursor.version = some all ∧
      (resetPage bytes feed after offset).2.cursor.epoch = feed.epoch ∧
      all.drop n = rows ++ rest ∧
      (resetPage bytes feed after offset).2.rows = rows.map Change.put ∧
      (resetPage bytes feed after offset).2.more = decide (rest ≠ []) ∧
      (resetPage bytes feed after offset).2.reset = decide (n = 0) ∧ (n = 0 ∨ n = offset) := by
  unfold resetPage
  dsimp only
  generalize hcurrent : (feed.resetSnapshot.filter fun snapshot => decide (snapshot.key = after)) = current
  have hsnapshot : history (current.getD ⟨after, snapshotRows feed, ⟨feed.epoch, feed.version⟩⟩).cursor.version =
      some (current.getD ⟨after, snapshotRows feed, ⟨feed.epoch, feed.version⟩⟩).rows ∧
      (current.getD ⟨after, snapshotRows feed, ⟨feed.epoch, feed.version⟩⟩).cursor.epoch = feed.epoch := by
    cases current with
    | none => exact ⟨h.now, rfl⟩
    | some snapshot => exact h.snapshot snapshot (Option.filter_eq_some_iff.mp hcurrent).1
  generalize current.getD ⟨after, snapshotRows feed, ⟨feed.epoch, feed.version⟩⟩ = snapshot at hsnapshot ⊢
  generalize hstart : (if current.isSome = true then offset else 0) = start
  obtain ⟨⟨rest, hrest⟩, -, -⟩ := cut_spec (fun row => bytes (.put row)) snapshot.rows start
  refine ⟨start, snapshot.rows, _, rest, _, rfl, ?_, hsnapshot.1, hsnapshot.2, hrest, rfl, ?_, rfl, ?_⟩
  · intro kept hkept
    split at hkept
    · obtain rfl := Option.some.inj hkept
      exact hsnapshot
    · exact nomatch hkept
  · have hlength := congrArg List.length hrest
    rw [List.length_drop, List.length_append] at hlength
    rw [decide_eq_decide, ne_eq, ← List.length_eq_zero_iff]
    omega
  · rw [← hstart]
    split
    · exact Or.inr rfl
    · exact Or.inl rfl

theorem offsetOf_reset {held : Held γ} {reset : Reset γ} (h : held.reset = some reset) :
    offsetOf held = reset.rows.all.length := by
  rw [offsetOf, h, Rows.all, List.length_append]
  rfl

/-- A snapshot is answered from where its gathered rows end. -/
theorem Exchange.Sound.answer_page (bytes : Change γ → ℕ) {history : History γ} {s : Exchange γ}
    (h : s.Sound projects history) (hneeds : needsReset s.feed s.pull = true) :
    ({ s with
      feed := (resetPage bytes s.feed s.pull (offsetOf s.held)).1
      answer := some (resetPage bytes s.feed s.pull (offsetOf s.held)).2 } : Exchange γ).Sound projects history := by
  obtain ⟨n, all, rows, rest, kept, hfeed, hkept, hrecorded, hepoch, hsplit, hrows, hmore, hreset, hn⟩ :=
    resetPage_spec bytes h.chronicle s.pull (offsetOf s.held)
  rw [hfeed]
  refine ⟨h.chronicle.keep kept hkept, h.shared, fun cursor hcursor => (h.pull cursor hcursor).keep kept,
    h.gathering, h.gathered, ?_, h.accepted⟩
  intro part hpart
  obtain rfl := Option.some.inj hpart
  refine .page n all rows rest hrecorded hepoch hsplit hrows hmore hreset (fun _ => hneeds) ?_
  by_cases hzero : n = 0
  · exact Or.inl hzero
  · have hoffset := hn.resolve_left hzero
    cases hgathering : s.held.reset with
    | none =>
      rw [offsetOf, hgathering] at hoffset
      exact absurd hoffset hzero
    | some reset =>
      refine Or.inr ⟨reset, rfl, fun hcursor => Or.inl ?_⟩
      obtain ⟨all', m, hrecorded', hperm⟩ := h.gathered reset hgathering
      rw [hcursor, hrecorded] at hrecorded'
      obtain rfl := Option.some.inj hrecorded'
      rw [hoffset, offsetOf_reset hgathering, hperm.length_eq, List.length_take]
      refine hperm.trans (List.Perm.of_eq ?_)
      rw [List.take_eq_take_iff]
      omega

/-- Changes are answered from the cursor. -/
theorem Exchange.Sound.answer_changes (bytes : Change γ → ℕ) {history : History γ} {s : Exchange γ}
    (h : s.Sound projects history) {cursor : Cursor} (hpull : s.pull = some cursor)
    (hneeds : needsReset s.feed s.pull = false) :
    ({ s with
      feed := (deltaPage bytes s.feed cursor).1
      answer := some (deltaPage bytes s.feed cursor).2 } : Exchange γ).Sound projects history := by
  have hsound := h.chronicle.sound
  have hfloor : s.feed.floor ≤ cursor.version := by
    rw [hpull, needsReset] at hneeds
    simp only [Bool.or_eq_false_iff, decide_eq_false_iff_not] at hneeds
    omega
  have hgathering : s.held.reset = none := by
    rw [Option.eq_none_iff_forall_ne_some]
    intro reset hreset
    rw [h.gathering reset hreset] at hneeds
    exact nomatch hneeds
  refine ⟨h.chronicle.keep none (fun _ hkept => nomatch hkept), h.shared,
    fun cursor hcursor => (h.pull cursor hcursor).keep none, h.gathering, h.gathered, ?_, h.accepted⟩
  intro part hpart
  obtain rfl := Option.some.inj hpart
  obtain ⟨page, rest, hsplit, hrows, -, -, hcursor, -⟩ := deltaPage_cut bytes hsound cursor
  have hentries : ∀ entry ∈ page, entry ∈ changesAfter s.feed cursor.version := fun entry hentry =>
    hsplit ▸ List.mem_append_left _ hentry
  refine .changes rfl hgathering rfl ?_ ?_ ?_
  · show (deltaPage bytes s.feed cursor).2.cursor.version ≤ s.feed.version
    rw [hcursor]
    cases hlast : page.getLast? with
    | none => exact Nat.le_refl _
    | some last =>
      obtain ⟨hkind, -⟩ := mem_changesAfter.mp (hentries last (List.mem_of_getLast? hlast))
      rcases hkind with ⟨item, hitem, rfl⟩ | ⟨marker, hmarker, rfl⟩
      · exact hsound.rowVersion item hitem
      · exact hsound.markerVersion marker hmarker
  · intro change hchange
    rw [hrows] at hchange
    obtain ⟨entry, hentry, rfl⟩ := List.mem_map.mp hchange
    obtain ⟨⟨item, hitem, rfl⟩ | ⟨marker, hmarker, rfl⟩, -⟩ := mem_changesAfter.mp (hentries entry hentry)
    · exact h.chronicle.fits.shared item.row (List.mem_map_of_mem hitem)
    · exact trivial
  · intro k
    rcases deltaPage_current bytes hsound hfloor k with hheard | ⟨hsame, hcurrent⟩
    · exact Or.inl hheard
    · exact Or.inr ⟨hsame, hcurrent _ ((h.pull cursor hpull).current k)⟩

theorem Exchange.Sound.answered (bytes : Change γ → ℕ) {history : History γ} {s : Exchange γ}
    (h : s.Sound projects history) :
    ({ s with
      feed := (page bytes s.feed s.pull (offsetOf s.held)).1
      answer := some (page bytes s.feed s.pull (offsetOf s.held)).2 } : Exchange γ).Sound projects history := by
  cases hpull : s.pull with
  | none =>
    have hpage := h.answer_page bytes (by rw [hpull]; rfl)
    rw [hpull] at hpage
    simpa only [page, hpull] using hpage
  | some cursor =>
    cases hneeds : needsReset s.feed s.pull with
    | true =>
      have hpage := h.answer_page bytes hneeds
      rw [hpull] at hpage hneeds
      simpa only [page, hneeds, if_true, hpull] using hpage
    | false =>
      have hchanges := h.answer_changes bytes hpull hneeds
      rw [hpull] at hneeds
      simpa only [page, hneeds, Bool.false_eq_true, if_false, hpull] using hchanges

/-! ### Accepting -/

theorem acceptAgents_eq {held held' : Held γ} {part : Part γ}
    (h : acceptAgents projects held part = some held') :
    (part.reset = false → ∀ reset, held.reset = some reset → reset.cursor = part.cursor) ∧
      held' =
        if part.reset = true ∨ held.reset.isSome then
          if part.more then
            ⟨keepShared projects held.rows, some ⟨part.cursor,
              boundAll (part.rows.foldl (applyChange projects) (targetOf held part))⟩⟩
          else ⟨keepShared projects (boundAll (part.rows.foldl (applyChange projects) (targetOf held part))), none⟩
        else ⟨keepShared projects (boundAll (part.rows.foldl (applyChange projects) (targetOf held part))),
          held.reset⟩ := by
  unfold acceptAgents at h
  split at h
  · exact nomatch h
  · split at h
    · exact nomatch h
    · next hcursor =>
      refine ⟨fun hreset reset hgathering => ?_, ?_⟩
      · simpa [hreset, hgathering] using hcursor
      · rw [← Option.some.inj h]
        split
        · split <;> rfl
        · rfl

/-- **Gathered rows never replace the held ones before the last page.** -/
theorem acceptAgents_keeps {held held' : Held γ} {part : Part γ} (hshared : held.rows.Shared projects)
    (h : acceptAgents projects held part = some held') (hgathering : held'.reset.isSome) :
    held'.rows = held.rows := by
  obtain ⟨-, heq⟩ := acceptAgents_eq h
  split at heq
  · split at heq
    · rw [heq]
      exact keepShared_eq hshared
    · rw [heq] at hgathering
      exact nomatch hgathering
  · next hnone =>
    rw [heq] at hgathering
    exact absurd (Or.inr hgathering) hnone

section

variable [DecidableEq γ]

/-- What the bounds drop after the entries of an answer, the sender has no more or has changed since. -/
def spares (s : Exchange γ) : Event γ projects → Bool
  | .accept =>
    match s.answer with
    | none => true
    | some part =>
      let applied := part.rows.foldl (applyChange projects) s.held.rows
      part.reset || s.held.reset.isSome || applied.all.all fun row =>
        decide (row ∈ (boundAll applied).all) ||
          (s.feed.rows.get? row.k).all fun item => part.cursor.version < item.version
  | _ => true

/-- A row that is spared is current at the cursor, also for a receiver that lacks it. -/
theorem current_of_spares {s : Exchange γ} {part : Part γ} (hanswer : s.answer = some part)
    (hreset : part.reset = false) (hgathering : s.held.reset = none)
    (hspares : spares s (.accept : Event γ projects) = true) {row : Row γ}
    (hrow : row ∈ (part.rows.foldl (applyChange projects) s.held.rows).all)
    (hdropped : row ∉ (boundAll (part.rows.foldl (applyChange projects) s.held.rows)).all) :
    Current (view s.feed) part.cursor.version row.k none := by
  unfold spares at hspares
  simp only [hanswer, hreset, hgathering, Option.isSome_none, Bool.false_or, List.all_eq_true] at hspares
  have hitem := hspares row hrow
  simp only [hdropped, decide_false, Bool.false_or] at hitem
  cases hget : s.feed.rows.get? row.k with
  | none =>
    refine Or.inl ?_
    show none = (s.feed.rows.get? row.k).map Versioned.row
    rw [hget, Option.map_none]
  | some item =>
    obtain ⟨hmem, hkey⟩ := Table.get?_eq_some.mp hget
    rw [hget] at hitem
    exact Or.inr (Or.inr (Or.inl ⟨item, hmem, hkey, by simpa using hitem⟩))

/-- An answer of changes brings the held rows to its cursor. -/
theorem Exchange.Sound.accept_changes {history : History γ} {s : Exchange γ} (h : s.Sound projects history)
    {part : Part γ} (hanswer : s.answer = some part) (hspares : spares s (.accept : Event γ projects) = true)
    (hreset : part.reset = false) (hgathering : s.held.reset = none)
    (hepoch : part.cursor.epoch = s.feed.epoch) (hle : part.cursor.version ≤ s.feed.version)
    (hshared : ∀ change ∈ part.rows, SharedChange projects change)
    (hcurrent : ∀ k, (∀ value, Current (view s.feed) part.cursor.version k (part.rows.foldl (hear k) value)) ∨
      ((∀ value, part.rows.foldl (hear k) value = value) ∧
        Current (view s.feed) part.cursor.version k (s.held.rows.row? k))) :
    ({ s with
      held := ⟨boundAll (part.rows.foldl (applyChange projects) s.held.rows), none⟩
      pull := some part.cursor
      accepted := some part } : Exchange γ).Sound projects history := by
  have hmet : Met s.feed ⟨boundAll (part.rows.foldl (applyChange projects) s.held.rows), none⟩ part.cursor := by
    refine ⟨hepoch, hle, fun k => ?_⟩
    rcases row?_boundAll (part.rows.foldl (applyChange projects) s.held.rows) k with
      hkept | ⟨hdropped, row, hrow, hgone, rfl⟩
    · show Current _ _ _ ((boundAll _).row? k)
      rw [hkept, row?_apply hshared k]
      rcases hcurrent k with hheard | ⟨hsame, hheld⟩
      · exact hheard _
      · rw [hsame]
        exact hheld
    · show Current _ _ _ ((boundAll _).row? row.k)
      rw [hdropped]
      exact current_of_spares hanswer hreset hgathering hspares hrow hgone
  exact {
    chronicle := h.chronicle
    shared := (h.shared.apply part.rows).bound
    pull := fun cursor hcursor => Option.some.inj hcursor ▸ hmet
    gathering := fun _ hnone => nomatch hnone
    gathered := fun _ hnone => nomatch hnone
    answer := by
      intro other hother
      obtain rfl := Option.some.inj (hanswer.symm.trans hother)
      exact .changes hreset rfl hepoch hle hshared fun k =>
        (hcurrent k).imp id fun ⟨hsame, _⟩ => ⟨hsame, hmet.current k⟩
    accepted := fun other hother _ => congrArg (some ∘ Part.cursor) (Option.some.inj hother) }

omit [DecidableEq γ] in
/-- The rows that a page of a snapshot is applied to are those before it. -/
theorem targetOf_page {held : Held γ} {part : Part γ} {n : ℕ} {all rows : List (Row γ)}
    (hreset : part.reset = decide (n = 0))
    (hcursor : part.reset = false → ∀ reset, held.reset = some reset → reset.cursor = part.cursor)
    (hplace : n = 0 ∨ ∃ reset, held.reset = some reset ∧ (reset.cursor = part.cursor →
      reset.rows.all.Perm (all.take n) ∨ reset.rows.all.Perm (all.take (n + rows.length)))) :
    ((targetOf held part).all.Perm (all.take n) ∨ (targetOf held part).all.Perm (all.take (n + rows.length))) ∧
      (n ≠ 0 → ∃ reset, held.reset = some reset ∧ targetOf held part = reset.rows) := by
  by_cases hzero : n = 0
  · have hfirst : part.reset = true := by simp [hreset, hzero]
    rw [targetOf, if_pos hfirst, hzero, List.take_zero]
    exact ⟨Or.inl (List.Perm.refl _), fun hne => absurd rfl hne⟩
  · have hfirst : part.reset = false := by simp [hreset, hzero]
    obtain ⟨reset, hgathering, hperm⟩ := hplace.resolve_left hzero
    have htarget : targetOf held part = reset.rows := by
      rw [targetOf, hfirst, hgathering]
      rfl
    rw [htarget]
    exact ⟨hperm (hcursor hfirst reset hgathering), fun _ => ⟨reset, hgathering, rfl⟩⟩

omit [DecidableEq γ] in
/-- A page of a snapshot is gathered, or its last page takes the place of the held rows. -/
theorem Exchange.Sound.accept_page {history : History γ} {s : Exchange γ} (h : s.Sound projects history)
    {part : Part γ} (hanswer : s.answer = some part) {n : ℕ} {all rows rest : List (Row γ)}
    (hrecorded : history part.cursor.version = some all) (hepoch : part.cursor.epoch = s.feed.epoch)
    (hsplit : all.drop n = rows ++ rest) (hrows : part.rows = rows.map Change.put)
    (hmore : part.more = decide (rest ≠ [])) (hreset : part.reset = decide (n = 0))
    (hneeds : part.more = true → needsReset s.feed s.pull = true)
    (hplace : n = 0 ∨ ∃ reset, s.held.reset = some reset ∧ (reset.cursor = part.cursor →
      reset.rows.all.Perm (all.take n) ∨ reset.rows.all.Perm (all.take (n + rows.length))))
    {held' : Held γ} (haccept : acceptAgents projects s.held part = some held') :
    ({ s with
      held := held'
      pull := if part.more && (part.reset || decide (0 < offsetOf s.held)) then s.pull else some part.cursor
      accepted := some part } : Exchange γ).Sound projects history := by
  obtain ⟨hcursor, heq⟩ := acceptAgents_eq haccept
  obtain ⟨htarget, hlater⟩ := targetOf_page hreset hcursor hplace
  have hfits := h.chronicle.past_fits _ _ hrecorded
  have hgathered := gather_page hfits hsplit htarget
  rw [← hrows] at hgathered
  have hcase : part.reset = true ∨ s.held.reset.isSome := by
    by_cases hzero : n = 0
    · exact Or.inl (by simp [hreset, hzero])
    · obtain ⟨reset, hgathering, -⟩ := hlater hzero
      exact Or.inr (by simp [hgathering])
  rw [if_pos hcase] at heq
  generalize boundAll (part.rows.foldl (applyChange projects) (targetOf s.held part)) = gathered at heq hgathered
  cases hlast : part.more with
  | true =>
    rw [hlast, if_pos rfl, keepShared_eq h.shared] at heq
    have hrest : rest ≠ [] := by simpa [hlast] using hmore
    have hresetting : (part.reset || decide (0 < offsetOf s.held)) = true := by
      by_cases hzero : n = 0
      · simp [hreset, hzero]
      · obtain ⟨reset, hgathering, hrowsOf⟩ := hlater hzero
        have hlength : 0 < (targetOf s.held part).all.length := by
          have hsize := congrArg List.length hsplit
          have hpositive := List.length_pos_iff.mpr hrest
          rw [List.length_drop, List.length_append] at hsize
          rcases htarget with hperm | hperm
          · rw [hperm.length_eq, List.length_take]
            omega
          · rw [hperm.length_eq, List.length_take]
            omega
        rw [offsetOf_reset hgathering, ← hrowsOf]
        simp [hlength]
    rw [hresetting, Bool.and_self, if_pos rfl, heq]
    exact {
      chronicle := h.chronicle
      shared := h.shared
      pull := fun cursor hpull => ⟨(h.pull cursor hpull).epoch, (h.pull cursor hpull).version_le,
        (h.pull cursor hpull).current⟩
      gathering := fun _ _ => hneeds hlast
      gathered := fun reset hgathering => by
        obtain rfl := Option.some.inj hgathering
        exact ⟨all, n + rows.length, hrecorded, hgathered⟩
      answer := fun other hother => by
        obtain rfl := Option.some.inj (hanswer.symm.trans hother)
        exact .page n all rows rest hrecorded hepoch hsplit hrows hmore hreset hneeds
          (Or.inr ⟨_, rfl, fun _ => Or.inr hgathered⟩)
      accepted := fun other hother hnone => by
        obtain rfl := Option.some.inj hother
        rw [hlast] at hnone
        exact nomatch hnone }
  | false =>
    have hrest : rest = [] := by simpa [hlast] using hmore
    have hall : gathered.all.Perm all := by
      have hsize := congrArg List.length hsplit
      rw [hrest, List.length_append, List.length_drop, List.length_nil] at hsize
      rwa [List.take_of_length_le (by omega)] at hgathered
    have hshared : gathered.Shared projects := fun row hrow => hfits.shared row (hall.mem_iff.mp hrow)
    rw [hlast, if_neg Bool.false_ne_true, keepShared_eq hshared] at heq
    rw [Bool.false_and, if_neg Bool.false_ne_true, heq]
    have hmet : Met s.feed ⟨gathered, none⟩ part.cursor := by
      refine ⟨hepoch, h.chronicle.version_le _ _ hrecorded, fun k => ?_⟩
      show Current _ _ _ (lookup gathered.all k)
      rw [lookup_perm gathered.all_nodup hall k]
      exact h.chronicle.past _ _ hrecorded k
    exact {
      chronicle := h.chronicle
      shared := hshared
      pull := fun cursor hpull => Option.some.inj hpull ▸ hmet
      gathering := fun _ hnone => nomatch hnone
      gathered := fun _ hnone => nomatch hnone
      answer := fun other hother => by
        obtain rfl := Option.some.inj (hanswer.symm.trans hother)
        by_cases hzero : n = 0
        · exact .page n all rows rest hrecorded hepoch hsplit hrows hmore hreset
            (fun hmore => absurd (hlast.symm.trans hmore) Bool.false_ne_true) (Or.inl hzero)
        · -- The last page again only sets rows that are held.
          have hsub : rows.Sublist all :=
            (List.sublist_append_left rows rest).trans (hsplit ▸ List.drop_sublist n all)
          have hnodup := hfits.nodup.sublist (hsub.map Row.k)
          refine .changes (by simp [hreset, hzero]) rfl hepoch hmet.version_le ?_ fun k => ?_
          · intro change hchange
            rw [hrows] at hchange
            obtain ⟨row, hrow, rfl⟩ := List.mem_map.mp hchange
            exact hfits.shared row (hsub.subset hrow)
          · rw [hrows]
            simp only [foldl_hear_put hnodup]
            cases hrow : lookup rows k with
            | none => exact Or.inr ⟨fun _ => rfl, hmet.current k⟩
            | some row =>
              refine Or.inl fun _ => ?_
              obtain ⟨hmem, hkey⟩ := (lookup_eq_some hnodup).mp hrow
              have hpast := h.chronicle.past _ _ hrecorded k
              rwa [(lookup_eq_some hfits.nodup).mpr ⟨hsub.subset hmem, hkey⟩] at hpast
      accepted := fun other hother _ => congrArg (some ∘ Part.cursor) (Option.some.inj hother) }

/-! ### Convergence -/

variable (bytes : Change γ → ℕ)

theorem Exchange.Sound.step {history : History γ} {s s' : Exchange γ} (h : s.Sound projects history)
    {event : Event γ projects} (hspares : spares s event = true) (hstep : step bytes s event = .ok s') :
    ∃ history' : History γ, s'.Sound projects history' := by
  have hrefresh : ∀ now (sources : Option (Sources γ projects)), s.clock ≤ now →
      ({ s with feed := refresh s.feed now sources, clock := now } : Exchange γ).Sound projects
        (record history (refresh s.feed now sources)) := by
    intro now sources hnow
    obtain ⟨-, hevolves, -⟩ := refresh_spec h.chronicle.sound hnow sources
    exact h.evolve hevolves (h.chronicle.refresh hnow sources) fun version rows hrows =>
      h.chronicle.record_extends hevolves hrows
  cases event with
  | refresh now sources =>
    rw [AgentFeed.step] at hstep
    split at hstep
    · exact nomatch hstep
    · next hnow =>
      obtain rfl := Except.ok.inj hstep
      exact ⟨_, hrefresh now sources (Int.not_lt.mp hnow)⟩
  | ask now sources =>
    rw [AgentFeed.step] at hstep
    split at hstep
    · exact nomatch hstep
    · next hnow =>
      obtain rfl := Except.ok.inj hstep
      exact ⟨_, (hrefresh now sources (Int.not_lt.mp hnow)).answered bytes⟩
  | accept =>
    rw [AgentFeed.step] at hstep
    split at hstep
    · exact nomatch hstep
    · next part hanswer =>
      split at hstep
      · exact nomatch hstep
      · next held' haccept =>
        obtain rfl := Except.ok.inj hstep
        refine ⟨history, ?_⟩
        cases h.answer part hanswer with
        | page n all rows rest recorded epoch split rows_eq more reset needs place =>
          exact h.accept_page hanswer recorded epoch split rows_eq more reset needs place haccept
        | changes reset gathering epoch version_le shared current =>
          have hchanged := h.accept_changes hanswer hspares reset gathering epoch version_le shared current
          obtain ⟨-, heq⟩ := acceptAgents_eq haccept
          have htarget : targetOf s.held part = s.held.rows := by
            rw [targetOf, reset, gathering]
            rfl
          rw [reset, gathering, htarget, if_neg (by simp), keepShared_eq (h.shared.apply part.rows).bound] at heq
          have hoffset : offsetOf s.held = 0 := by
            rw [offsetOf, gathering]
            rfl
          rw [heq, reset, hoffset, Bool.false_or, decide_eq_false (Nat.lt_irrefl 0), Bool.and_false,
            if_neg Bool.false_ne_true]
          exact hchanged

theorem sound_run {epoch : String} {events : List (Event γ projects)} {s : Exchange γ}
    (hspares : Accepted (AgentFeed.step bytes) (fun s event => spares s event = true) (initial epoch) events)
    (hrun : run (AgentFeed.step bytes) (initial epoch) events = .ok s) :
    ∃ history : History γ, s.Sound projects history := by
  refine run_invariant_of_accepted (I := fun s => ∃ history : History γ, s.Sound projects history) ?_
    ⟨_, sound_initial epoch⟩ hspares hrun
  rintro state event next ⟨history, hsound⟩ hspared hstep
  exact hsound.step bytes hspared hstep

/-- What an exchange promises of its state. -/
structure Converges (bytes : Change γ → ℕ) (projects : List String) (s : Exchange γ) : Prop where
  /-- The rows are those of the sender when the accepted answer has no more and the feed is at
  the version that its cursor names. -/
  rows : ∀ part, s.accepted = some part → part.more = false → s.feed.version = part.cursor.version →
    s.held.rows.all.Perm s.feed.current
  /-- The held rows stay while a snapshot is gathered. -/
  gathering : ∀ s', AgentFeed.step bytes s (.accept : Event γ projects) = .ok s' → s'.held.reset.isSome →
    s'.held.rows = s.held.rows

/-- **The exchange converges** in every run whose answers drop no row that the sender holds as it was. -/
theorem exchange_converges (epoch : String) (events : List (Event γ projects)) (s : Exchange γ)
    (hrun : run (AgentFeed.step bytes) (initial epoch) events = .ok s)
    (hspares : Accepted (AgentFeed.step bytes) (fun s event => spares s event = true) (initial epoch) events) :
    Converges bytes projects s := by
  obtain ⟨history, hsound⟩ := sound_run bytes hspares hrun
  constructor
  · intro part haccepted hmore hversion
    have hmet := hsound.pull _ (hsound.accepted part haccepted hmore)
    apply perm_of_lookup s.held.rows.all_nodup (current_nodup s.feed)
    intro k
    rw [lookup_current]
    apply (hmet.current k).exact
    rw [← hversion]
    exact hsound.chronicle.sound.not_later k
  · intro s' hstep hgathering
    rw [AgentFeed.step] at hstep
    split at hstep
    · exact nomatch hstep
    · split at hstep
      · exact nomatch hstep
      · next held' haccept =>
        obtain rfl := Except.ok.inj hstep
        exact acceptAgents_keeps hsound.shared haccept hgathering

end

/-! ### An exchange that converges, and one that does not -/

theorem ok_of_any {result : Except Unit (Exchange γ)} {check : Exchange γ → Bool}
    (h : (match result with | .ok s => check s | .error _ => false) = true) :
    ∃ s, result = .ok s ∧ check s = true := by
  cases result with
  | ok s => exact ⟨s, rfl, h⟩
  | error _ => exact nomatch h

/-- The accepted answer has no more, and the feed is at its version. -/
def settled (s : Exchange γ) : Bool :=
  s.accepted.any fun part => !part.more && decide (s.feed.version = part.cursor.version)

theorem settled_spec {s : Exchange γ} (h : settled s = true) :
    ∃ part, s.accepted = some part ∧ part.more = false ∧ s.feed.version = part.cursor.version := by
  obtain ⟨part, haccepted, hpart⟩ := (Option.any_eq_true _ _).mp h
  exact ⟨part, haccepted, by simpa using hpart⟩

/-- The agent rows of the projects `a` and `b`. -/
def agentSources (rows : List (Row ℕ)) (hnodup : (rows.map Row.k).Nodup)
    (hkey : ∀ row ∈ rows, isLaneKey row.k = false) (hshared : ∀ row ∈ rows, row.p ∈ ["a", "b"]) :
    Sources ℕ ["a", "b"] where
  agents := ⟨rows, hnodup⟩
  lanes := Table.empty
  privacyChanged := false
  agents_key := hkey
  lanes_key _ h := nomatch h
  lanes_length := Nat.zero_le _
  shared row hrow := hshared row (by simpa using hrow)

def fewRows : Sources ℕ ["a", "b"] :=
  agentSources [⟨.agent 1, "a", true, 10, 0⟩, ⟨.agent 2, "a", false, 9, 0⟩, ⟨.agent 3, "b", false, 8, 0⟩]
    (by decide) (by decide) (by decide)

/-- One row has moved, one is gone. -/
def fewMoved : Sources ℕ ["a", "b"] :=
  agentSources [⟨.agent 1, "b", false, 11, 0⟩, ⟨.agent 3, "b", false, 8, 1⟩] (by decide) (by decide) (by decide)

theorem exchange_converges_moved :
    ∃ s, run (step fun _ => 200) (initial "e") [.ask 1 (some fewRows), .accept, .ask 2 (some fewMoved),
        .ask 3 none, .accept, .accept] = .ok s ∧
      settled s = true ∧ Converges (fun _ : Change ℕ => 200) ["a", "b"] s := by
  obtain ⟨s, hrun, hsettled⟩ := @ok_of_any ℕ (run (step fun _ => 200) (initial "e")
    [.ask 1 (some fewRows), .accept, .ask 2 (some fewMoved), .ask 3 none, .accept, .accept]) settled
    (by decide)
  exact ⟨s, hrun, hsettled, exchange_converges _ _ _ s hrun (by decide)⟩

/-- Rows of the project `a` that are no seats, the newest first. -/
def plainRows (data : ℕ) : List (Row ℕ) :=
  (List.range 49).map fun i => ⟨.agent i, "a", false, 148 - i, data⟩

theorem keys_plainRows (data : ℕ) : (plainRows data).map Row.k = (List.range 49).map Key.agent := by
  rw [plainRows, List.map_map]
  exact rfl

theorem plainRows_spec {data : ℕ} {row : Row ℕ} (h : row ∈ plainRows data) :
    isLaneKey row.k = false ∧ row.p = "a" := by
  obtain ⟨i, -, rfl⟩ := List.mem_map.mp h
  exact ⟨rfl, rfl⟩

/-- No key of a plain row is a later one. -/
theorem fresh_plainRows {data i : ℕ} (hi : 49 ≤ i) : Key.agent i ∉ (plainRows data).map Row.k := by
  rw [keys_plainRows]
  intro hmem
  obtain ⟨j, hj, heq⟩ := List.mem_map.mp hmem
  have hlt := List.mem_range.mp hj
  cases heq
  omega

theorem nodup_plainRows (data : ℕ) : ((plainRows data).map Row.k).Nodup := by
  rw [keys_plainRows]
  exact List.nodup_range.map fun _ _ h => Key.agent.inj h

/-- Fifty rows of the project `a`, the first of them a seat. -/
def fullRows : Sources ℕ ["a", "b"] :=
  agentSources (⟨.agent 49, "a", true, 500, 0⟩ :: plainRows 0)
    (List.nodup_cons.mpr ⟨fresh_plainRows (by decide), nodup_plainRows 0⟩)
    (List.forall_mem_cons.mpr ⟨rfl, fun _ h => (plainRows_spec h).1⟩)
    (List.forall_mem_cons.mpr ⟨by decide, fun _ h => by rw [(plainRows_spec h).2]; decide⟩)

/-- The seat has moved to `b` and a new row has come to `a`; all others have changed. -/
def fullMoved : Sources ℕ ["a", "b"] :=
  agentSources (⟨.agent 50, "a", false, 600, 0⟩ :: plainRows 1 ++ [⟨.agent 49, "b", false, 50, 0⟩])
    (by
      rw [List.map_append, List.map_cons, List.map_singleton]
      apply (List.nodup_cons.mpr ⟨fresh_plainRows (by decide), nodup_plainRows 1⟩).append (List.nodup_singleton _)
      intro k hk hlast
      rw [List.mem_singleton.mp hlast] at hk
      exact fresh_plainRows (Nat.le_refl 49) ((List.mem_cons.mp hk).resolve_left (by decide)))
    (by
      intro row hrow
      rcases List.mem_append.mp hrow with hrow | hlast
      · rcases List.mem_cons.mp hrow with rfl | hplain
        · exact rfl
        · exact (plainRows_spec hplain).1
      · rw [List.mem_singleton.mp hlast]
        exact rfl)
    (by
      intro row hrow
      rcases List.mem_append.mp hrow with hrow | hlast
      · rcases List.mem_cons.mp hrow with rfl | hplain
        · decide
        · rw [(plainRows_spec hplain).2]
          decide
      · rw [List.mem_singleton.mp hlast]
        decide)

/-- The last state of the run of the two sources, if there is one. -/
def droppedRun : Except Unit (Exchange ℕ) :=
  run (step fun _ => 200) (initial "e")
    [.ask 1 (some fullRows), .accept, .ask 2 (some fullMoved), .accept, .ask 3 none, .accept]

/-- The receiver believes that it has all rows, and has not as many as the feed. -/
def shortOfRows : Except Unit (Exchange ℕ) → Bool
  | .ok s => settled s && decide (s.held.rows.all.length ≠ s.feed.current.length)
  | .error _ => false

theorem droppedRun_short : shortOfRows droppedRun = true := by decide +kernel

theorem short_spec {result : Except Unit (Exchange ℕ)} (h : shortOfRows result = true) :
    ∃ s, result = .ok s ∧ settled s = true ∧ s.held.rows.all.length ≠ s.feed.current.length := by
  cases result with
  | ok s =>
    obtain ⟨hsettled, hlength⟩ := Bool.and_eq_true_iff.mp h
    exact ⟨s, rfl, hsettled, of_decide_eq_true hlength⟩
  | error _ => exact nomatch h

/-- **A row is lost between two pages of changes**: when the new row comes, the one that made room
for it is still there, and the oldest row is dropped. -/
theorem dropped_in_the_middle :
    ¬∀ (events : List (Event ℕ ["a", "b"])) (s : Exchange ℕ),
      run (step fun _ => 200) (initial "e") events = .ok s → Converges (fun _ => 200) ["a", "b"] s := by
  intro hall
  obtain ⟨s, hrun, hsettled, hlength⟩ := short_spec droppedRun_short
  obtain ⟨part, haccepted, hmore, hversion⟩ := settled_spec hsettled
  exact hlength ((hall _ s hrun).rows part haccepted hmore hversion).length_eq

end Delegatus.AgentFeed
