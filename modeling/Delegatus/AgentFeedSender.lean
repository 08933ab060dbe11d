import Delegatus.AgentFeed
import Delegatus.CompactedFeeds

/-!
# What the agent feed keeps of its changes

`Feed.Sound` is the invariant of the sender: every row and marker has a version of its own, a marker
of a key that has a row again is older than the row, and the markers are in the order of their time.
A reader at a version hears of a key again when the key's row or a marker is newer, or when markers
after the version may be gone (`view`).  Each refresh makes the feed grow in that sense
(`grows_refresh`), and leaves the rows of its selection (`refresh_rows`).
-/

namespace Delegatus.AgentFeed

open CompactedFeeds

variable {γ : Type*}

/-! ### The view of a reader -/

def Feed.row? (feed : Feed γ) (k : Key) : Option (Row γ) := (feed.rows.get? k).map Versioned.row

/-- A reader at version `c` will hear of the key. -/
def Later (feed : Feed γ) (c : ℕ) (k : Key) : Prop :=
  c < feed.floor ∨ (∃ item ∈ feed.rows.rows, item.key = k ∧ c < item.version) ∨
    ∃ marker ∈ feed.markers, marker.k = k ∧ c < marker.version

def view (feed : Feed γ) : View Key (Row γ) where
  version := feed.version
  contents := feed.row?
  later := Later feed
  antitone c c' k hle := by
    rintro (hfloor | ⟨item, hitem, hkey, hlt⟩ | ⟨marker, hmarker, hkey, hlt⟩)
    · exact Or.inl (by omega)
    · exact Or.inr (Or.inl ⟨item, hitem, hkey, by omega⟩)
    · exact Or.inr (Or.inr ⟨marker, hmarker, hkey, by omega⟩)

structure Feed.Sound (feed : Feed γ) (clock : Int) : Prop where
  rowVersion : ∀ item ∈ feed.rows.rows, item.version ≤ feed.version
  markerVersion : ∀ marker ∈ feed.markers, marker.version ≤ feed.version
  rowsDiffer : ∀ a ∈ feed.rows.rows, ∀ b ∈ feed.rows.rows, a.version = b.version → a = b
  markersDiffer : feed.markers.Pairwise fun a b => a.version < b.version
  differ : ∀ item ∈ feed.rows.rows, ∀ marker ∈ feed.markers, item.version ≠ marker.version
  /-- A marker of a key that has a row is older than the row. -/
  older : ∀ item ∈ feed.rows.rows, ∀ marker ∈ feed.markers, marker.k = item.key →
    marker.version < item.version
  floor : feed.floor ≤ feed.version
  /-- The last change is there, unless markers of its version may be gone. -/
  top : feed.floor = feed.version ∨ (∃ item ∈ feed.rows.rows, item.version = feed.version) ∨
    ∃ marker ∈ feed.markers, marker.version = feed.version
  sorted : feed.markers.Pairwise fun a b => a.time ≤ b.time
  past : ∀ marker ∈ feed.markers, marker.time ≤ clock

/-- Nothing is newer than the feed. -/
theorem Feed.Sound.not_later {feed : Feed γ} {clock : Int} (h : feed.Sound clock) (k : Key) :
    ¬Later feed feed.version k := by
  rintro (hfloor | ⟨item, hitem, -, hlt⟩ | ⟨marker, hmarker, -, hlt⟩)
  · have hle := h.floor
    omega
  · have hle := h.rowVersion item hitem
    omega
  · have hle := h.markerVersion marker hmarker
    omega

theorem Feed.row?_eq_some {feed : Feed γ} {k : Key} {row : Row γ} :
    feed.row? k = some row ↔ ∃ item ∈ feed.rows.rows, item.key = k ∧ item.row = row := by
  unfold Feed.row?
  rw [Option.map_eq_some_iff]
  constructor
  · rintro ⟨item, hget, hrow⟩
    obtain ⟨hitem, hkey⟩ := Table.get?_eq_some.mp hget
    exact ⟨item, hitem, hkey, hrow⟩
  · rintro ⟨item, hitem, hkey, hrow⟩
    exact ⟨item, Table.get?_eq_some.mpr ⟨hitem, hkey⟩, hrow⟩

/-! ### Removals and changes -/

theorem Feed.Sound.remove {feed : Feed γ} {clock now : Int} (h : feed.Sound clock) (hnow : clock ≤ now)
    (k : Key) : (feed.remove now k).Sound now where
  rowVersion item hitem := by
    have hle := h.rowVersion item (Table.mem_delete.mp hitem).1
    simp only [Feed.remove]
    omega
  markerVersion marker hmarker := by
    simp only [Feed.remove]
    rcases List.mem_append.mp hmarker with hold | hnew
    · have hle := h.markerVersion marker hold
      omega
    · rw [List.mem_singleton.mp hnew]
  rowsDiffer a ha b hb := h.rowsDiffer a (Table.mem_delete.mp ha).1 b (Table.mem_delete.mp hb).1
  markersDiffer := by
    simp only [Feed.remove]
    rw [List.pairwise_append]
    refine ⟨h.markersDiffer, List.pairwise_singleton _ _, ?_⟩
    intro a ha b hb
    rw [List.mem_singleton.mp hb]
    exact Nat.lt_succ_of_le (h.markerVersion a ha)
  differ item hitem marker hmarker := by
    have hold := (Table.mem_delete.mp hitem).1
    rcases List.mem_append.mp hmarker with hmem | hnew
    · exact h.differ item hold marker hmem
    · rw [List.mem_singleton.mp hnew]
      exact Nat.ne_of_lt (Nat.lt_succ_of_le (h.rowVersion item hold))
  older item hitem marker hmarker hkey := by
    obtain ⟨hold, hne⟩ := Table.mem_delete.mp hitem
    rcases List.mem_append.mp hmarker with hmem | hnew
    · exact h.older item hold marker hmem hkey
    · rw [List.mem_singleton.mp hnew] at hkey
      exact absurd hkey.symm hne
  floor := by
    have hle := h.floor
    simp only [Feed.remove]
    omega
  top := Or.inr (Or.inr ⟨_, List.mem_append_right _ (List.mem_singleton_self _), rfl⟩)
  sorted := by
    simp only [Feed.remove]
    rw [List.pairwise_append]
    refine ⟨h.sorted, List.pairwise_singleton _ _, ?_⟩
    intro a ha b hb
    rw [List.mem_singleton.mp hb]
    exact (h.past a ha).trans hnow
  past marker hmarker := by
    rcases List.mem_append.mp hmarker with hmem | hnew
    · exact (h.past marker hmem).trans hnow
    · rw [List.mem_singleton.mp hnew]

theorem grows_remove {feed : Feed γ} {clock : Int} (h : feed.Sound clock) (now : Int) (k : Key) :
    Grows (view feed) (view (feed.remove now k)) where
  version_le := Nat.le_succ _
  later c k' := by
    rintro (hfloor | ⟨item, hitem, rfl, hlt⟩ | ⟨marker, hmarker, hkey, hlt⟩)
    · exact Or.inl hfloor
    · by_cases hk : item.key = k
      · -- The marker is newer than the row that it stands for.
        have hle := h.rowVersion item hitem
        refine Or.inr (Or.inr ⟨⟨k, feed.version + 1, now⟩, by simp [Feed.remove], hk.symm, ?_⟩)
        exact (hlt.trans_le hle).trans (Nat.lt_succ_self _)
      · exact Or.inr (Or.inl ⟨item, Table.mem_delete.mpr ⟨hitem, hk⟩, rfl, hlt⟩)
    · exact Or.inr (Or.inr ⟨marker, List.mem_append_left _ hmarker, hkey, hlt⟩)
  changed k' := by
    by_cases hk : k' = k
    · refine Or.inr (Or.inr (Or.inr ⟨⟨k, feed.version + 1, now⟩, ?_, hk.symm, Nat.lt_succ_self _⟩))
      exact List.mem_append_right _ (List.mem_singleton_self _)
    · refine Or.inl ?_
      simp only [view, Feed.row?, Feed.remove, Table.get?_delete, if_neg hk]

section Puts

variable [DecidableEq γ]

/-- A row is put under the next version, or is there as it is. -/
theorem put_cases (feed : Feed γ) (privacyChanged : Bool) (row : Row γ) :
    (feed.put privacyChanged row = feed ∧ feed.row? row.k = some row) ∨
      feed.put privacyChanged row =
        { feed with rows := feed.rows.set ⟨row, feed.version + 1⟩, version := feed.version + 1 } := by
  unfold Feed.put
  dsimp only
  split
  · next hsame =>
    simp only [Bool.and_eq_true, decide_eq_true_eq] at hsame
    exact Or.inl ⟨rfl, hsame.2⟩
  · exact Or.inr rfl

theorem Feed.Sound.put {feed : Feed γ} {clock : Int} (h : feed.Sound clock) (privacyChanged : Bool)
    (row : Row γ) : (feed.put privacyChanged row).Sound clock := by
  rcases put_cases feed privacyChanged row with ⟨heq, -⟩ | heq
  · rw [heq]
    exact h
  · rw [heq]
    have hmem : ∀ item, item ∈ (feed.rows.set ⟨row, feed.version + 1⟩).rows →
        item = ⟨row, feed.version + 1⟩ ∨ (item ∈ feed.rows.rows ∧ item.key ≠ row.k) :=
      fun item hitem => Table.mem_set.mp hitem
    refine ⟨?_, ?_, ?_, h.markersDiffer, ?_, ?_, ?_, ?_, h.sorted, h.past⟩
    · intro item hitem
      rcases hmem item hitem with rfl | ⟨hold, -⟩
      · exact Nat.le_refl _
      · exact (h.rowVersion item hold).trans (Nat.le_succ _)
    · exact fun marker hmarker => (h.markerVersion marker hmarker).trans (Nat.le_succ _)
    · intro a ha b hb hversion
      rcases hmem a ha with rfl | ⟨holdA, -⟩
      · rcases hmem b hb with rfl | ⟨holdB, -⟩
        · rfl
        · have hle := h.rowVersion b holdB
          simp only at hversion
          omega
      · rcases hmem b hb with rfl | ⟨holdB, -⟩
        · have hle := h.rowVersion a holdA
          simp only at hversion
          omega
        · exact h.rowsDiffer a holdA b holdB hversion
    · intro item hitem marker hmarker
      rcases hmem item hitem with rfl | ⟨hold, -⟩
      · exact (Nat.ne_of_lt (Nat.lt_succ_of_le (h.markerVersion marker hmarker))).symm
      · exact h.differ item hold marker hmarker
    · intro item hitem marker hmarker hkey
      rcases hmem item hitem with rfl | ⟨hold, -⟩
      · exact Nat.lt_succ_of_le (h.markerVersion marker hmarker)
      · exact h.older item hold marker hmarker hkey
    · exact h.floor.trans (Nat.le_succ _)
    · exact Or.inr (Or.inl ⟨_, Table.mem_set.mpr (Or.inl rfl), rfl⟩)

theorem grows_put {feed : Feed γ} {clock : Int} (h : feed.Sound clock) (privacyChanged : Bool)
    (row : Row γ) : Grows (view feed) (view (feed.put privacyChanged row)) := by
  rcases put_cases feed privacyChanged row with ⟨heq, -⟩ | heq
  · rw [heq]
    exact .refl _
  · rw [heq]
    refine ⟨Nat.le_succ _, ?_, ?_⟩
    · rintro c k (hfloor | ⟨item, hitem, rfl, hlt⟩ | hmarker)
      · exact Or.inl hfloor
      · by_cases hk : item.key = row.k
        · have hle := h.rowVersion item hitem
          refine Or.inr (Or.inl ⟨⟨row, feed.version + 1⟩, Table.mem_set.mpr (Or.inl rfl), hk.symm, ?_⟩)
          exact (hlt.trans_le hle).trans (Nat.lt_succ_self _)
        · exact Or.inr (Or.inl ⟨item, Table.mem_set.mpr (Or.inr ⟨hitem, hk⟩), rfl, hlt⟩)
      · exact Or.inr (Or.inr hmarker)
    · intro k
      by_cases hk : k = row.k
      · refine Or.inr (Or.inr (Or.inl ⟨⟨row, feed.version + 1⟩, Table.mem_set.mpr (Or.inl rfl), hk.symm, ?_⟩))
        exact Nat.lt_succ_self _
      · refine Or.inl ?_
        have hne : ¬k = (⟨row, feed.version + 1⟩ : Versioned γ).key := hk
        simp only [view, Feed.row?]
        rw [Table.get?_set, if_neg hne]

theorem row?_put (feed : Feed γ) (privacyChanged : Bool) (row : Row γ) (k : Key) :
    (feed.put privacyChanged row).row? k = if k = row.k then some row else feed.row? k := by
  rcases put_cases feed privacyChanged row with ⟨heq, hsame⟩ | heq
  · rw [heq]
    by_cases hk : k = row.k
    · rw [if_pos hk, hk, hsame]
    · rw [if_neg hk]
  · rw [heq]
    have hkey : (⟨row, feed.version + 1⟩ : Versioned γ).key = row.k := rfl
    simp only [Feed.row?]
    rw [Table.get?_set, hkey]
    split
    · rfl
    · rfl

end Puts

theorem row?_remove (feed : Feed γ) (now : Int) (k k' : Key) :
    (feed.remove now k).row? k' = if k' = k then none else feed.row? k' := by
  simp only [Feed.row?, Feed.remove]
  rw [Table.get?_delete]
  split <;> rfl

/-! ### Pruning -/

/-- In the order of their time, the fresh markers are the last ones. -/
theorem filter_fresh_eq_drop {markers : List Marker} (h : markers.Pairwise fun a b => a.time ≤ b.time)
    (now : Int) :
    ∃ n, (markers.filter fun item => now - item.time < 3600000) = markers.drop n := by
  induction markers with
  | nil => exact ⟨0, rfl⟩
  | cons first rest ih =>
    obtain ⟨hfirst, hrest⟩ := List.pairwise_cons.mp h
    by_cases hfresh : now - first.time < 3600000
    · refine ⟨0, ?_⟩
      rw [List.drop_zero, List.filter_eq_self]
      intro item hitem
      rcases List.mem_cons.mp hitem with rfl | hmem
      · simpa using hfresh
      · have hle := hfirst item hmem
        simp only [decide_eq_true_eq]
        omega
    · obtain ⟨n, hn⟩ := ih hrest
      exact ⟨n + 1, by simp [hfresh, hn]⟩

/-- The floor after a prune: the highest version that was pruned. -/
theorem foldl_max {markers : List Marker} {floor : ℕ} :
    floor ≤ markers.foldl (fun floor marker => max floor marker.version) floor ∧
      (∀ marker ∈ markers, marker.version ≤
        markers.foldl (fun floor marker => max floor marker.version) floor) ∧
      ∀ bound, floor ≤ bound → (∀ marker ∈ markers, marker.version ≤ bound) →
        markers.foldl (fun floor marker => max floor marker.version) floor ≤ bound := by
  induction markers generalizing floor with
  | nil => exact ⟨Nat.le_refl _, (fun _ h => nomatch h), fun _ h _ => h⟩
  | cons first rest ih =>
    obtain ⟨hfloor, hall, hbound⟩ := @ih (max floor first.version)
    refine ⟨(Nat.le_max_left _ _).trans hfloor, ?_, ?_⟩
    · intro marker hmarker
      rcases List.mem_cons.mp hmarker with rfl | hmem
      · exact (Nat.le_max_right _ _).trans hfloor
      · exact hall marker hmem
    · intro bound hle hmarkers
      refine hbound bound ?_ fun marker hmem => hmarkers marker (List.mem_cons_of_mem _ hmem)
      exact Nat.max_le.mpr ⟨hle, hmarkers first List.mem_cons_self⟩

/-- What a prune does: the first markers go, and the floor is the highest of them. -/
theorem pruneMarkers_eq {feed : Feed γ} {clock : Int} (h : feed.Sound clock) (now : Int) :
    ∃ n, pruneMarkers feed now = { feed with
      markers := feed.markers.drop n
      floor := (feed.markers.take n).foldl (fun floor marker => max floor marker.version) feed.floor } := by
  obtain ⟨n, hn⟩ := filter_fresh_eq_drop h.sorted now
  unfold pruneMarkers
  dsimp only
  rw [hn, List.drop_drop]
  generalize n + ((feed.markers.drop n).length - 200) = m
  by_cases hle : m ≤ feed.markers.length
  · refine ⟨m, ?_⟩
    have hlength : feed.markers.length - (feed.markers.drop m).length = m := by
      rw [List.length_drop]
      omega
    rw [hlength]
  · refine ⟨feed.markers.length, ?_⟩
    rw [List.drop_eq_nil_of_le (Nat.le_of_not_le hle), List.drop_length, List.length_nil, Nat.sub_zero]

/-- When the marker of the last change goes, the floor is its version. -/
theorem top_prune {feed : Feed γ} {clock : Int} (h : feed.Sound clock) (n : ℕ) :
    (feed.markers.take n).foldl (fun floor marker => max floor marker.version) feed.floor = feed.version ∨
      (∃ item ∈ feed.rows.rows, item.version = feed.version) ∨
        ∃ marker ∈ feed.markers.drop n, marker.version = feed.version := by
  have hbound := (@foldl_max (feed.markers.take n) feed.floor).2.2 feed.version h.floor fun marker hmarker =>
    h.markerVersion marker ((List.take_sublist _ _).subset hmarker)
  rcases h.top with hfloor | hrow | ⟨marker, hmarker, hversion⟩
  · refine Or.inl (Nat.le_antisymm hbound ?_)
    rw [← hfloor]
    exact foldl_max.1
  · exact Or.inr (Or.inl hrow)
  · rw [← List.take_append_drop n feed.markers, List.mem_append] at hmarker
    rcases hmarker with hgone | hkept
    · refine Or.inl (Nat.le_antisymm hbound ?_)
      rw [← hversion]
      exact foldl_max.2.1 marker hgone
    · exact Or.inr (Or.inr ⟨marker, hkept, hversion⟩)

theorem Feed.Sound.prune {feed : Feed γ} {clock : Int} (h : feed.Sound clock) (now : Int) :
    (pruneMarkers feed now).Sound clock := by
  obtain ⟨n, heq⟩ := pruneMarkers_eq h now
  have hsub : (feed.markers.drop n).Sublist feed.markers := List.drop_sublist _ _
  rw [heq]
  exact {
    rowVersion := h.rowVersion
    markerVersion := fun marker hmarker => h.markerVersion marker (hsub.subset hmarker)
    rowsDiffer := h.rowsDiffer
    markersDiffer := h.markersDiffer.sublist hsub
    differ := fun item hitem marker hmarker => h.differ item hitem marker (hsub.subset hmarker)
    older := fun item hitem marker hmarker => h.older item hitem marker (hsub.subset hmarker)
    floor := foldl_max.2.2 _ h.floor fun marker hmarker =>
      h.markerVersion marker ((List.take_sublist _ _).subset hmarker)
    top := top_prune h n
    sorted := h.sorted.sublist hsub
    past := fun marker hmarker => h.past marker (hsub.subset hmarker) }

theorem grows_prune {feed : Feed γ} {clock : Int} (h : feed.Sound clock) (now : Int) :
    Grows (view feed) (view (pruneMarkers feed now)) := by
  obtain ⟨n, heq⟩ := pruneMarkers_eq h now
  rw [heq]
  refine ⟨Nat.le_refl _, ?_, fun k => Or.inl rfl⟩
  rintro c k (hfloor | hrow | ⟨marker, hmarker, hkey, hlt⟩)
  · exact Or.inl (hfloor.trans_le foldl_max.1)
  · exact Or.inr (Or.inl hrow)
  · -- A marker that went is not above the floor.
    rw [← List.take_append_drop n feed.markers, List.mem_append] at hmarker
    rcases hmarker with hgone | hkept
    · exact Or.inl (hlt.trans_le (foldl_max.2.1 marker hgone))
    · exact Or.inr (Or.inr ⟨marker, hkept, hkey, hlt⟩)

theorem row?_prune (feed : Feed γ) (now : Int) (k : Key) :
    (pruneMarkers feed now).row? k = feed.row? k := by
  simp only [Feed.row?, pruneMarkers]

/-! ### Refreshes -/

/-- What a refresh leaves of a feed, whatever it changes. -/
structure Evolves (feed feed' : Feed γ) : Prop where
  grows : Grows (view feed) (view feed')
  epoch : feed'.epoch = feed.epoch
  floor_le : feed.floor ≤ feed'.floor
  /-- A change of the rows takes a version. -/
  unchanged : feed'.version = feed.version → feed'.rows = feed.rows
  snapshot : feed'.resetSnapshot = feed.resetSnapshot ∨ feed'.resetSnapshot = none

theorem Evolves.refl (feed : Feed γ) : Evolves feed feed :=
  ⟨.refl _, rfl, Nat.le_refl _, fun _ => rfl, Or.inl rfl⟩

theorem Evolves.trans {a b c : Feed γ} (h : Evolves a b) (h' : Evolves b c) : Evolves a c where
  grows := h.grows.trans h'.grows
  epoch := h'.epoch.trans h.epoch
  floor_le := h.floor_le.trans h'.floor_le
  unchanged hversion := by
    have hle : a.version ≤ b.version := h.grows.version_le
    have hle' : b.version ≤ c.version := h'.grows.version_le
    exact (h'.unchanged (by omega)).trans (h.unchanged (by omega))
  snapshot := by
    rcases h'.snapshot with hsame | hnone
    · rw [hsame]
      exact h.snapshot
    · exact Or.inr hnone

theorem Evolves.remove {feed : Feed γ} {clock : Int} (h : feed.Sound clock) (now : Int) (k : Key) :
    Evolves feed (feed.remove now k) where
  grows := grows_remove h now k
  epoch := rfl
  floor_le := Nat.le_refl _
  unchanged hversion := absurd hversion (Nat.succ_ne_self _)
  snapshot := Or.inl rfl

theorem Evolves.prune {feed : Feed γ} {clock : Int} (h : feed.Sound clock) (now : Int) :
    Evolves feed (pruneMarkers feed now) := by
  have hgrows := grows_prune h now
  obtain ⟨n, heq⟩ := pruneMarkers_eq h now
  rw [heq] at hgrows ⊢
  exact ⟨hgrows, rfl, foldl_max.1, fun _ => rfl, Or.inl rfl⟩

theorem Feed.Sound.later {feed : Feed γ} {clock now : Int} (h : feed.Sound clock) (hnow : clock ≤ now) :
    feed.Sound now :=
  { h with past := fun marker hmarker => (h.past marker hmarker).trans hnow }

/-- The row of a key in a list. -/
def lookup (rows : List (Row γ)) (k : Key) : Option (Row γ) := rows.find? fun row => row.k = k

theorem foldl_remove {feed : Feed γ} {now : Int} (h : feed.Sound now) (keys : List Key) :
    (keys.foldl (fun feed k => feed.remove now k) feed).Sound now ∧
      Evolves feed (keys.foldl (fun feed k => feed.remove now k) feed) ∧
      ∀ k, (keys.foldl (fun feed k => feed.remove now k) feed).row? k =
        if k ∈ keys then none else feed.row? k := by
  induction keys generalizing feed with
  | nil => exact ⟨h, .refl _, fun k => (if_neg List.not_mem_nil).symm⟩
  | cons first rest ih =>
    obtain ⟨hsound, hevolves, hrow⟩ := ih (h.remove (Int.le_refl _) first)
    refine ⟨hsound, (Evolves.remove h now first).trans hevolves, fun k => ?_⟩
    rw [List.foldl_cons, hrow k, row?_remove]
    by_cases hfirst : k = first
    · simp [hfirst]
    · simp [hfirst]

section

variable [DecidableEq γ]

theorem Evolves.put {feed : Feed γ} {clock : Int} (h : feed.Sound clock) (privacyChanged : Bool)
    (row : Row γ) : Evolves feed (feed.put privacyChanged row) := by
  have hgrows := grows_put h privacyChanged row
  rcases put_cases feed privacyChanged row with ⟨heq, -⟩ | heq
  · rw [heq]
    exact .refl _
  · rw [heq] at hgrows ⊢
    exact ⟨hgrows, rfl, Nat.le_refl _, fun hversion => absurd hversion (Nat.succ_ne_self _), Or.inl rfl⟩

theorem foldl_put {feed : Feed γ} {clock : Int} (h : feed.Sound clock) (privacyChanged : Bool)
    (rows : List (Row γ)) (hnodup : (rows.map Row.k).Nodup) :
    (rows.foldl (fun feed row => feed.put privacyChanged row) feed).Sound clock ∧
      Evolves feed (rows.foldl (fun feed row => feed.put privacyChanged row) feed) ∧
      ∀ k, (rows.foldl (fun feed row => feed.put privacyChanged row) feed).row? k =
        (lookup rows k).or (feed.row? k) := by
  induction rows generalizing feed with
  | nil => exact ⟨h, .refl _, fun k => rfl⟩
  | cons first rest ih =>
    obtain ⟨hfresh, hrest⟩ := List.nodup_cons.mp hnodup
    obtain ⟨hsound, hevolves, hrow⟩ := ih (h.put privacyChanged first) hrest
    refine ⟨hsound, (Evolves.put h privacyChanged first).trans hevolves, fun k => ?_⟩
    rw [List.foldl_cons, hrow k, row?_put, lookup, lookup, List.find?_cons]
    by_cases hfirst : k = first.k
    · have hnone : (rest.find? fun row => row.k = k) = none := by
        rw [List.find?_eq_none]
        intro row hmem hkey
        apply hfresh
        rw [← hfirst, ← of_decide_eq_true hkey]
        exact List.mem_map_of_mem hmem
      rw [hnone, hfirst]
      simp
    · simp [hfirst, Ne.symm hfirst]

end

end Delegatus.AgentFeed
