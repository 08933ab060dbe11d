import Delegatus.AgentFeedSender
import Delegatus.DistinctSorts

/-!
# What the pages of the agent feed carry

The rows that a feed holds after a refresh are those of its selection (`refresh_row?`), which keeps
within the bounds of a receiver (`Fits`).  A page of changes is the beginning of the log of the
changes after the cursor (`changes_log`), and a page of a snapshot is a part of all rows.
-/

namespace Delegatus.AgentFeed

open CompactedFeeds

variable {γ : Type*} {projects : List String}

/-! ### Rows within the bounds -/

/-- Rows that a receiver of the projects holds without dropping one. -/
structure Fits (projects : List String) (rows : List (Row γ)) : Prop where
  nodup : (rows.map Row.k).Nodup
  shared : ∀ row ∈ rows, row.p ∈ projects
  agents : (rows.filter fun row => !isLaneKey row.k).length ≤ 200
  project : ∀ p, (rows.filter fun row => !isLaneKey row.k && decide (row.p = p)).length ≤ 50
  lanes : (rows.filter fun row => isLaneKey row.k).length ≤ MAX_LANE_ROWS

theorem Fits.sublist {rows rows' : List (Row γ)} (h : Fits projects rows) (hsub : rows'.Sublist rows) :
    Fits projects rows' where
  nodup := h.nodup.sublist (hsub.map _)
  shared row hrow := h.shared row (hsub.subset hrow)
  agents := (hsub.filter _).length_le.trans h.agents
  project p := (hsub.filter _).length_le.trans (h.project p)
  lanes := (hsub.filter _).length_le.trans h.lanes

theorem Fits.perm {rows rows' : List (Row γ)} (h : Fits projects rows) (hperm : rows'.Perm rows) :
    Fits projects rows' where
  nodup := (hperm.map _).nodup_iff.mpr h.nodup
  shared row hrow := h.shared row (hperm.mem_iff.mp hrow)
  agents := (hperm.filter _).length_eq.trans_le h.agents
  project p := (hperm.filter _).length_eq.trans_le (h.project p)
  lanes := (hperm.filter _).length_eq.trans_le h.lanes

theorem capProjects_length (rows : List (Row γ)) (p : String) :
    ((capProjects rows).filter fun row => row.p = p).length ≤ 50 := by
  induction rows using List.reverseRecOn with
  | nil => exact Nat.zero_le _
  | append_singleton rows row ih =>
    rw [capProjects_concat]
    split
    · exact ih
    · next hroom =>
      rw [List.filter_append, List.length_append]
      by_cases hp : row.p = p
      · rw [hp] at hroom
        simp only [List.filter_cons, hp, decide_true, if_true, List.filter_nil, List.length_singleton]
        omega
      · simpa [hp] using ih

theorem capProjects_eq_self {rows : List (Row γ)}
    (h : ∀ p, (rows.filter fun row => row.p = p).length ≤ 50) : capProjects rows = rows := by
  induction rows using List.reverseRecOn with
  | nil => rfl
  | append_singleton rows row ih =>
    have hinit : ∀ p, (rows.filter fun row => row.p = p).length ≤ 50 := fun p =>
      ((List.sublist_append_left rows [row]).filter _).length_le.trans (h p)
    have hroom : (rows.filter fun other => other.p = row.p).length + 1 ≤ 50 := by
      have hall := h row.p
      rw [List.filter_append, List.length_append] at hall
      simpa using hall
    rw [capProjects_concat, ih hinit, if_neg (by omega)]

theorem bounded_eq_self {rows : List (Row γ)} (hproject : ∀ p, (rows.filter fun row => row.p = p).length ≤ 50)
    (hall : rows.length ≤ 200) : bounded rows = rows := by
  rw [bounded, capProjects_eq_self hproject, List.take_of_length_le hall]

theorem filter_lanes_of_agents {rows : List (Row γ)} (h : ∀ row ∈ rows, isLaneKey row.k = false) :
    (rows.filter fun row => isLaneKey row.k) = [] := by
  rw [List.filter_eq_nil_iff]
  intro row hrow
  simp [h row hrow]

/-- The selection keeps within the bounds. -/
theorem wanted_fits (sources : Sources γ projects) : Fits projects (wanted sources) := by
  have hperm := List.perm_insertionSort (fun a b => selectOrder a b = true) sources.agents.rows
  have hsub := bounded_sublist (sources.agents.rows.insertionSort fun a b => selectOrder a b)
  have hmem : ∀ row ∈ bounded (sources.agents.rows.insertionSort fun a b => selectOrder a b),
      row ∈ sources.agents.rows := fun row hrow => hperm.mem_iff.mp (hsub.subset hrow)
  have hagent := fun row hrow => sources.agents_key row (hmem row hrow)
  have hnolane : (sources.lanes.rows.filter fun row => !isLaneKey row.k) = [] := by
    rw [List.filter_eq_nil_iff]
    intro row hrow
    simp [sources.lanes_key row hrow]
  unfold wanted
  constructor
  · rw [List.map_append, List.nodup_append]
    refine ⟨((hperm.map Row.k).nodup_iff.mpr sources.agents.nodup).sublist (hsub.map _),
      sources.lanes.nodup, ?_⟩
    rintro a ha b hb rfl
    obtain ⟨row, hrow, hkey⟩ := List.mem_map.mp ha
    obtain ⟨lane, hlane, hlaneKey⟩ := List.mem_map.mp hb
    have hkind := sources.lanes_key lane hlane
    rw [hlaneKey, ← hkey, hagent row hrow] at hkind
    exact Bool.false_ne_true hkind
  · intro row hrow
    refine sources.shared row (List.mem_append.mpr ?_)
    exact (List.mem_append.mp hrow).imp (hmem row) id
  · rw [List.filter_append, hnolane, List.append_nil]
    refine (List.length_filter_le _ _).trans ?_
    rw [bounded, List.length_take]
    exact Nat.min_le_left _ _
  · intro p
    have hnone : (sources.lanes.rows.filter fun row => !isLaneKey row.k && decide (row.p = p)) = [] := by
      rw [List.filter_eq_nil_iff]
      intro row hrow
      simp [sources.lanes_key row hrow]
    rw [List.filter_append, hnone, List.append_nil, ← List.filter_filter]
    refine (List.length_filter_le _ _).trans ?_
    refine LE.le.trans ?_ (capProjects_length (sources.agents.rows.insertionSort fun a b => selectOrder a b) p)
    exact ((List.take_sublist _ _).filter _).length_le
  · rw [List.filter_append, filter_lanes_of_agents hagent, List.nil_append]
    exact (List.length_filter_le _ _).trans sources.lanes_length

/-! ### The rows of a feed -/

theorem lookup_eq_some {rows : List (Row γ)} (h : (rows.map Row.k).Nodup) {k : Key} {row : Row γ} :
    lookup rows k = some row ↔ row ∈ rows ∧ row.k = k :=
  Table.get?_eq_some (t := (⟨rows, h⟩ : Table (Row.k : Row γ → Key)))

theorem lookup_eq_none {rows : List (Row γ)} {k : Key} : lookup rows k = none ↔ ∀ row ∈ rows, row.k ≠ k := by
  simp [lookup, List.find?_eq_none]

/-- The order of rows of different keys is of no account. -/
theorem lookup_perm {rows rows' : List (Row γ)} (h : (rows.map Row.k).Nodup) (hperm : rows.Perm rows')
    (k : Key) : lookup rows k = lookup rows' k := by
  have h' : (rows'.map Row.k).Nodup := (hperm.map Row.k).nodup_iff.mp h
  apply Option.ext
  intro row
  rw [lookup_eq_some h, lookup_eq_some h', hperm.mem_iff]

/-- Rows with the same row for each key are the same rows. -/
theorem perm_of_lookup {rows rows' : List (Row γ)} (h : (rows.map Row.k).Nodup)
    (h' : (rows'.map Row.k).Nodup) (hsame : ∀ k, lookup rows k = lookup rows' k) : rows.Perm rows' := by
  rw [List.perm_ext_iff_of_nodup (List.Nodup.of_map _ h) (List.Nodup.of_map _ h')]
  intro row
  have hrow : lookup rows row.k = some row ↔ row ∈ rows ∧ row.k = row.k := lookup_eq_some h
  rw [hsame row.k, lookup_eq_some h'] at hrow
  simpa using hrow.symm

/-- The rows that a feed holds. -/
def Feed.current (feed : Feed γ) : List (Row γ) := feed.rows.rows.map Versioned.row

theorem current_nodup (feed : Feed γ) : (feed.current.map Row.k).Nodup := by
  rw [Feed.current, List.map_map]
  exact feed.rows.nodup

theorem lookup_current (feed : Feed γ) (k : Key) : lookup feed.current k = feed.row? k := by
  apply Option.ext
  intro row
  rw [lookup_eq_some (current_nodup feed), Feed.row?_eq_some, Feed.current, List.mem_map]
  constructor
  · rintro ⟨⟨item, hitem, rfl⟩, hkey⟩
    exact ⟨item, hitem, hkey, rfl⟩
  · rintro ⟨item, hitem, hkey, rfl⟩
    exact ⟨⟨item, hitem, rfl⟩, hkey⟩

theorem snapshotRows_perm (feed : Feed γ) : (snapshotRows feed).Perm feed.current :=
  List.perm_insertionSort _ _

theorem Feed.Sound.forget {feed : Feed γ} {clock : Int} (h : feed.Sound clock) :
    ({ feed with resetSnapshot := none } : Feed γ).Sound clock := ⟨h.1, h.2, h.3, h.4, h.5, h.6, h.7, h.8, h.9, h.10⟩

theorem Evolves.forget (feed : Feed γ) : Evolves feed { feed with resetSnapshot := none } :=
  ⟨.refl _, rfl, Nat.le_refl _, fun _ => rfl, Or.inr rfl⟩

section Refreshes

variable [DecidableEq γ]

/-- A refresh keeps the feed sound, and one that finds its sources changed leaves their selection. -/
theorem refresh_spec {feed : Feed γ} {clock now : Int} (h : feed.Sound clock) (hnow : clock ≤ now)
    (sources : Option (Sources γ projects)) :
    (refresh feed now sources).Sound now ∧ Evolves feed (refresh feed now sources) ∧
      ∀ k, (refresh feed now sources).row? k =
        sources.elim (feed.row? k) fun sources => lookup (wanted sources) k := by
  cases sources with
  | none =>
    have hnew := h.later hnow
    exact ⟨hnew.prune now, Evolves.prune hnew now, fun k => row?_prune feed now k⟩
  | some sources =>
    have hstart : ∃ start, start = (if sources.privacyChanged then { feed with resetSnapshot := none } else feed) ∧
        start.Sound now ∧ Evolves feed start ∧ start.rows = feed.rows := by
      refine ⟨_, rfl, ?_⟩
      split
      · exact ⟨(h.later hnow).forget, Evolves.forget feed, rfl⟩
      · exact ⟨h.later hnow, .refl _, rfl⟩
    obtain ⟨start, hdef, hsound, hevolves, hrows⟩ := hstart
    have hremoved := foldl_remove hsound
      ((start.rows.rows.map Versioned.key).filter fun k => !(wanted sources).any fun row => row.k = k)
    obtain ⟨hsoundRemoved, hevolvesRemoved, hrowRemoved⟩ := hremoved
    obtain ⟨hsoundPut, hevolvesPut, hrowPut⟩ :=
      foldl_put hsoundRemoved sources.privacyChanged (wanted sources) (wanted_fits sources).nodup
    unfold refresh
    dsimp only
    rw [← hdef]
    refine ⟨hsoundPut.prune now,
      ((hevolves.trans hevolvesRemoved).trans hevolvesPut).trans (Evolves.prune hsoundPut now), ?_⟩
    intro k
    rw [row?_prune, hrowPut k, hrowRemoved k]
    simp only [Option.elim_some]
    cases hwanted : lookup (wanted sources) k with
    | some row => rfl
    | none =>
      -- A row that is not wanted was removed.
      rw [Option.none_or]
      split
      · rfl
      · next hkept =>
        rw [Feed.row?, Option.map_eq_none_iff, Table.get?_eq_none]
        intro item hitem hkey
        apply hkept
        rw [List.mem_filter]
        refine ⟨List.mem_map.mpr ⟨item, hitem, hkey⟩, ?_⟩
        rw [lookup_eq_none] at hwanted
        simpa using hwanted

/-- The rows of a feed keep within the bounds. -/
theorem refresh_fits {feed : Feed γ} {clock now : Int} (h : feed.Sound clock) (hnow : clock ≤ now)
    (hfits : Fits projects feed.current) (sources : Option (Sources γ projects)) :
    Fits projects (refresh feed now sources).current := by
  obtain ⟨-, -, hrow⟩ := refresh_spec h hnow sources
  cases sources with
  | none =>
    refine hfits.perm (perm_of_lookup (current_nodup _) (current_nodup _) fun k => ?_)
    rw [lookup_current, lookup_current]
    exact hrow k
  | some sources =>
    have hwanted := wanted_fits sources
    refine hwanted.perm (perm_of_lookup (current_nodup _) hwanted.nodup fun k => ?_)
    rw [lookup_current]
    exact hrow k

end Refreshes

/-! ### The log of the changes -/

def Change.row? : Change γ → Option (Row γ)
  | .put row => some row
  | .gone _ => none

def entryOf (entry : ℕ × Change γ) : Entry Key (Row γ) := ⟨entry.1, entry.2.key, entry.2.row?⟩

theorem mem_changesAfter {feed : Feed γ} {c : ℕ} {entry : ℕ × Change γ} :
    entry ∈ changesAfter feed c ↔
      ((∃ item ∈ feed.rows.rows, item.entry = entry) ∨ ∃ marker ∈ feed.markers, marker.entry = entry) ∧
        c < entry.1 := by
  unfold changesAfter
  dsimp only
  rw [List.mem_insertionSort, List.mem_filter, List.mem_append, List.mem_map, List.mem_map,
    decide_eq_true_eq]

theorem Feed.Sound.markers_nodup {feed : Feed γ} {clock : Int} (h : feed.Sound clock) :
    (feed.markers.map Marker.version).Nodup :=
  List.pairwise_map.mpr (h.markersDiffer.imp Nat.ne_of_lt)

theorem Feed.Sound.entries_nodup {feed : Feed γ} {clock : Int} (h : feed.Sound clock) :
    (feed.rows.rows.map Versioned.entry ++ feed.markers.map Marker.entry).Nodup := by
  rw [List.nodup_append]
  refine ⟨?_, ?_, ?_⟩
  · apply List.Nodup.map_on _ feed.rows.rows_nodup
    intro a ha b hb heq
    exact h.rowsDiffer a ha b hb (congrArg Prod.fst heq)
  · apply List.Nodup.of_map Prod.fst
    rw [List.map_map]
    exact h.markers_nodup
  · rintro a ha b hb rfl
    obtain ⟨item, hitem, rfl⟩ := List.mem_map.mp ha
    obtain ⟨marker, hmarker, heq⟩ := List.mem_map.mp hb
    exact h.differ item hitem marker hmarker (congrArg Prod.fst heq).symm

/-- No two entries have one version. -/
theorem Feed.Sound.entries_differ {feed : Feed γ} {clock : Int} (h : feed.Sound clock) :
    ∀ a ∈ feed.rows.rows.map Versioned.entry ++ feed.markers.map Marker.entry,
      ∀ b ∈ feed.rows.rows.map Versioned.entry ++ feed.markers.map Marker.entry, a.1 = b.1 → a = b := by
  intro a ha b hb hversion
  rcases List.mem_append.mp ha with ha | ha <;> rcases List.mem_append.mp hb with hb | hb
  · obtain ⟨item, hitem, rfl⟩ := List.mem_map.mp ha
    obtain ⟨item', hitem', rfl⟩ := List.mem_map.mp hb
    rw [h.rowsDiffer item hitem item' hitem' hversion]
  · obtain ⟨item, hitem, rfl⟩ := List.mem_map.mp ha
    obtain ⟨marker, hmarker, rfl⟩ := List.mem_map.mp hb
    exact absurd hversion (h.differ item hitem marker hmarker)
  · obtain ⟨marker, hmarker, rfl⟩ := List.mem_map.mp ha
    obtain ⟨item, hitem, rfl⟩ := List.mem_map.mp hb
    exact absurd hversion.symm (h.differ item hitem marker hmarker)
  · obtain ⟨marker, hmarker, rfl⟩ := List.mem_map.mp ha
    obtain ⟨marker', hmarker', rfl⟩ := List.mem_map.mp hb
    rw [List.inj_on_of_nodup_map h.markers_nodup hmarker hmarker' hversion]

theorem changes_sorted {feed : Feed γ} {clock : Int} (h : feed.Sound clock) (c : ℕ) :
    (changesAfter feed c).Pairwise fun a b => a.1 < b.1 := by
  unfold changesAfter
  dsimp only
  refine DistinctSorts.pairwise_of_distinct (h.entries_nodup.filter _) ?_ ?_
  · intro a ha b hb
    exact h.entries_differ a (List.mem_filter.mp ha).1 b (List.mem_filter.mp hb).1
  · intro a b hne
    omega

/-- The entries after a version tell what a reader at the version has yet to hear. -/
theorem changes_log {feed : Feed γ} {clock : Int} (h : feed.Sound clock) {c : ℕ} (hc : feed.floor ≤ c) :
    Log (view feed) c ((changesAfter feed c).map entryOf) where
  sorted := List.pairwise_map.mpr (changes_sorted h c)
  heard k := by
    rintro (hfloor | ⟨item, hitem, hkey, hlt⟩ | ⟨marker, hmarker, hkey, hlt⟩)
    · omega
    · exact ⟨entryOf item.entry, List.mem_map_of_mem (mem_changesAfter.mpr ⟨Or.inl ⟨item, hitem, rfl⟩, hlt⟩), hkey⟩
    · exact ⟨entryOf marker.entry,
        List.mem_map_of_mem (mem_changesAfter.mpr ⟨Or.inr ⟨marker, hmarker, rfl⟩, hlt⟩), hkey⟩
  later entry hentry c' hlt := by
    obtain ⟨change, hchange, rfl⟩ := List.mem_map.mp hentry
    obtain ⟨⟨item, hitem, rfl⟩ | ⟨marker, hmarker, rfl⟩, -⟩ := mem_changesAfter.mp hchange
    · exact Or.inr (Or.inl ⟨item, hitem, rfl, hlt⟩)
    · exact Or.inr (Or.inr ⟨marker, hmarker, rfl, hlt⟩)
  newest entry hentry hnewest := by
    obtain ⟨change, hchange, rfl⟩ := List.mem_map.mp hentry
    obtain ⟨⟨item, hitem, rfl⟩ | ⟨marker, hmarker, rfl⟩, hafter⟩ := mem_changesAfter.mp hchange
    · exact (Feed.row?_eq_some.mpr ⟨item, hitem, rfl, rfl⟩).symm
    · -- A row of the marker's key would be newer.
      refine Eq.symm (Option.eq_none_iff_forall_ne_some.mpr fun row hrow => ?_)
      obtain ⟨item, hitem, hkey, -⟩ := Feed.row?_eq_some.mp hrow
      have holder := h.older item hitem marker hmarker hkey.symm
      have hle := hnewest (entryOf item.entry)
        (List.mem_map_of_mem (mem_changesAfter.mpr ⟨Or.inl ⟨item, hitem, rfl⟩, hafter.trans holder⟩)) hkey
      exact absurd holder (Nat.not_lt.mpr hle)

/-! ### Cutting -/

section Cuts

variable {α : Type*} (bytes : α → ℕ)

theorem cutLoop_prefix (items : List α) (taken : Bool) (size : ℕ) :
    ∃ rest, items = cutLoop bytes items taken size ++ rest := by
  induction items generalizing taken size with
  | nil => exact ⟨[], rfl⟩
  | cons item items ih =>
    unfold cutLoop
    split
    · exact ⟨item :: items, rfl⟩
    · obtain ⟨rest, hrest⟩ := ih true (size + bytes item + 1)
      exact ⟨rest, congrArg (item :: ·) hrest⟩

/-- A cut begins where it should, keeps to a page, and takes an entry when there is one. -/
theorem cut_spec (items : List α) (start : ℕ) :
    (∃ rest, items.drop start = cut bytes items start ++ rest) ∧
      (cut bytes items start).length ≤ PAGE_ENTRIES ∧
        (cut bytes items start = [] → items.drop start = []) := by
  obtain ⟨rest, hrest⟩ := cutLoop_prefix bytes ((items.drop start).take PAGE_ENTRIES) false 0
  refine ⟨⟨rest ++ (items.drop start).drop PAGE_ENTRIES, ?_⟩, ?_, ?_⟩
  · rw [← List.append_assoc, cut, ← hrest, List.take_append_drop]
  · have hlength := congrArg List.length hrest
    rw [List.length_append, List.length_take] at hlength
    unfold cut
    omega
  · intro hnil
    cases hdrop : items.drop start with
    | nil => rfl
    | cons item others =>
      rw [cut, hdrop, PAGE_ENTRIES, List.take_succ_cons, cutLoop, if_neg (by simp)] at hnil
      exact nomatch hnil

end Cuts

/-! ### Pages of changes -/

/-- What an entry makes of a reader's row of a key. -/
def hear (k : Key) (value : Option (Row γ)) (change : Change γ) : Option (Row γ) :=
  if change.key = k then change.row? else value

theorem foldl_hear (k : Key) (value : Option (Row γ)) (page : List (ℕ × Change γ)) :
    (page.map Prod.snd).foldl (hear k) value = (page.map entryOf).foldl (told k) value := by
  rw [List.foldl_map, List.foldl_map]
  rfl

variable (bytes : Change γ → ℕ)

/-- A page of changes is the beginning of the log, and its cursor the version up to which it goes. -/
theorem deltaPage_cut {feed : Feed γ} {clock : Int} (h : feed.Sound clock) (after : Cursor) :
    ∃ page rest, changesAfter feed after.version = page ++ rest ∧
      (deltaPage bytes feed after).2.rows = page.map Prod.snd ∧ page.length ≤ PAGE_ENTRIES ∧
      (deltaPage bytes feed after).2.more = decide (rest ≠ []) ∧
      (deltaPage bytes feed after).2.cursor.version = (page.getLast?.map Prod.fst).getD feed.version ∧
      (∀ entry ∈ rest, (deltaPage bytes feed after).2.cursor.version < entry.1) := by
  obtain ⟨⟨rest, hrest⟩, hlength, hsome⟩ :=
    cut_spec (fun change => bytes change.2) (changesAfter feed after.version) 0
  rw [List.drop_zero] at hrest hsome
  refine ⟨_, rest, hrest, rfl, hlength, ?_, rfl, ?_⟩
  · have hmore := congrArg List.length hrest
    rw [List.length_append] at hmore
    unfold deltaPage
    dsimp only
    rw [decide_eq_decide, hmore, ne_eq, ← List.length_eq_zero_iff]
    omega
  · intro entry hentry
    have hsorted := changes_sorted h after.version
    rw [hrest, List.pairwise_append] at hsorted
    unfold deltaPage
    dsimp only
    cases hlast : (cut (fun change => bytes change.2) (changesAfter feed after.version) 0).getLast? with
    | none =>
      rw [List.getLast?_eq_none_iff] at hlast
      rw [hlast, hsome hlast] at hrest
      rw [← List.nil_append rest, ← hrest] at hentry
      exact nomatch hentry
    | some last => exact hsorted.2.2 last (List.mem_of_getLast? hlast) entry hentry

/-- A reader that applies a page of changes is current at the cursor of the page. -/
theorem deltaPage_current {feed : Feed γ} {clock : Int} (h : feed.Sound clock) {after : Cursor}
    (hafter : feed.floor ≤ after.version) (k : Key) :
    let part := (deltaPage bytes feed after).2
    (∀ value, Current (view feed) part.cursor.version k (part.rows.foldl (hear k) value)) ∨
      ((∀ value, part.rows.foldl (hear k) value = value) ∧
        ∀ value, Current (view feed) after.version k value → Current (view feed) part.cursor.version k value) := by
  obtain ⟨page, rest, hsplit, hrows, -, -, -, hrest⟩ := deltaPage_cut bytes h after
  have hlog := changes_log h hafter
  rw [hsplit, List.map_append] at hlog
  dsimp only
  simp only [hrows, foldl_hear]
  apply hlog.page
  intro entry hentry
  obtain ⟨change, hchange, rfl⟩ := List.mem_map.mp hentry
  exact hrest change hchange

end Delegatus.AgentFeed
