import Mathlib.Data.List.Basic
import Mathlib.Data.List.Induction
import Mathlib.Data.Nat.Basic
import Mathlib.Data.Option.Basic

/-!
# Feeds that keep the last change of each key

A feed numbers its changes and keeps, for each key, what a reader that stopped at some version has
yet to hear: `later c k` says that a reader at version `c` will be told of the key `k` (or told to
start again).  Only the last change of a key is kept, so an entry of an older version may go
when a newer one of the same key comes.

`Grows` is what any change of the feed leaves.  A reader's value of a key is `Current` when it is the
feed's own or will be heard of again, and it stays so while the feed grows (`Grows.current`).

`Log` says what the entries after a version are.  A reader that applies the first of them is current
at the version of the last one that it applied (`Log.page`), wherever the log is cut.
-/

namespace Delegatus.CompactedFeeds

variable {κ ρ : Type*}

structure View (κ ρ : Type*) where
  version : ℕ
  contents : κ → Option ρ
  later : ℕ → κ → Prop
  antitone : ∀ c c' k, c ≤ c' → later c' k → later c k

/-- The feed `new` came from `old` by changes. -/
structure Grows (old new : View κ ρ) : Prop where
  version_le : old.version ≤ new.version
  later : ∀ c k, old.later c k → new.later c k
  /-- A key that changed will be heard of. -/
  changed : ∀ k, new.contents k = old.contents k ∨ new.later old.version k

theorem Grows.refl (v : View κ ρ) : Grows v v := ⟨Nat.le_refl _, fun _ _ => id, fun _ => Or.inl rfl⟩

theorem Grows.trans {a b c : View κ ρ} (h : Grows a b) (h' : Grows b c) : Grows a c where
  version_le := Nat.le_trans h.version_le h'.version_le
  later version k hlater := h'.later version k (h.later version k hlater)
  changed k := by
    rcases h'.changed k with hsame | hlater
    · rw [hsame]
      exact (h.changed k).imp id (h'.later _ k)
    · exact Or.inr (c.antitone _ _ k h.version_le hlater)

/-- A reader at version `c` that has `value` for the key has the feed's contents, or will hear
of the key. -/
def Current (v : View κ ρ) (c : ℕ) (k : κ) (value : Option ρ) : Prop :=
  value = v.contents k ∨ v.later c k

theorem current_contents (v : View κ ρ) (c : ℕ) (k : κ) : Current v c k (v.contents k) := Or.inl rfl

/-- What is current stays so while the feed grows. -/
theorem Grows.current {old new : View κ ρ} (h : Grows old new) {c : ℕ} (hc : c ≤ old.version) {k : κ}
    {value : Option ρ} (hcurrent : Current old c k value) : Current new c k value := by
  rcases hcurrent with rfl | hlater
  · exact (h.changed k).imp Eq.symm (new.antitone _ _ k hc)
  · exact Or.inr (h.later c k hlater)

/-- A reader that has heard of everything has the feed's contents. -/
theorem Current.exact {v : View κ ρ} {c : ℕ} {k : κ} {value : Option ρ} (h : Current v c k value)
    (hheard : ¬v.later c k) : value = v.contents k :=
  h.resolve_right hheard

/-! ### The entries of a log -/

/-- A change of the key `k` at a version; `none` removes it. -/
structure Entry (κ ρ : Type*) where
  version : ℕ
  k : κ
  value : Option ρ

variable [DecidableEq κ]

/-- What one entry makes of a reader's value of the key `k`. -/
def told (k : κ) (value : Option ρ) (entry : Entry κ ρ) : Option ρ :=
  if entry.k = k then entry.value else value

theorem foldl_told_of_absent {k : κ} {entries : List (Entry κ ρ)} (h : ∀ entry ∈ entries, entry.k ≠ k)
    (value : Option ρ) : entries.foldl (told k) value = value := by
  induction entries generalizing value with
  | nil => rfl
  | cons first rest ih =>
    rw [List.foldl_cons, told, if_neg (h first List.mem_cons_self)]
    exact ih (fun entry hentry => h entry (List.mem_cons_of_mem _ hentry)) value

/-- The last entry of a key decides. -/
theorem foldl_told_of_present {k : κ} {entries : List (Entry κ ρ)}
    (hsorted : entries.Pairwise fun a b => a.version < b.version) (h : ∃ entry ∈ entries, entry.k = k) :
    ∃ entry ∈ entries, entry.k = k ∧ (∀ other ∈ entries, other.k = k → other.version ≤ entry.version) ∧
      ∀ value, entries.foldl (told k) value = entry.value := by
  induction entries using List.reverseRecOn with
  | nil =>
    obtain ⟨entry, hentry, -⟩ := h
    exact nomatch hentry
  | append_singleton entries last ih =>
    obtain ⟨hinit, -, hlast⟩ := List.pairwise_append.mp hsorted
    have hle : ∀ other ∈ entries, other.version ≤ last.version := fun other hother =>
      Nat.le_of_lt (hlast other hother last (List.mem_singleton_self _))
    by_cases hkey : last.k = k
    · refine ⟨last, List.mem_append_right _ (List.mem_singleton_self _), hkey, ?_, ?_⟩
      · intro other hother _
        rcases List.mem_append.mp hother with hmem | hmem
        · exact hle other hmem
        · rw [List.mem_singleton.mp hmem]
      · intro value
        rw [List.foldl_append]
        exact if_pos hkey
    · have hpresent : ∃ entry ∈ entries, entry.k = k := by
        obtain ⟨entry, hentry, hentryKey⟩ := h
        rcases List.mem_append.mp hentry with hmem | hmem
        · exact ⟨entry, hmem, hentryKey⟩
        · rw [List.mem_singleton.mp hmem] at hentryKey
          exact absurd hentryKey hkey
      obtain ⟨entry, hentry, hentryKey, hnewest, hvalue⟩ := ih hinit hpresent
      refine ⟨entry, List.mem_append_left _ hentry, hentryKey, ?_, ?_⟩
      · intro other hother hotherKey
        rcases List.mem_append.mp hother with hmem | hmem
        · exact hnewest other hmem hotherKey
        · rw [List.mem_singleton.mp hmem] at hotherKey
          exact absurd hotherKey hkey
      · intro value
        rw [List.foldl_append, ← hvalue value]
        exact if_neg hkey

/-- The entries after the version `c`, of which there may be several of one key. -/
structure Log (v : View κ ρ) (c : ℕ) (log : List (Entry κ ρ)) : Prop where
  sorted : log.Pairwise fun a b => a.version < b.version
  heard : ∀ k, v.later c k → ∃ entry ∈ log, entry.k = k
  later : ∀ entry ∈ log, ∀ c' < entry.version, v.later c' entry.k
  newest : ∀ entry ∈ log, (∀ other ∈ log, other.k = entry.k → other.version ≤ entry.version) →
    entry.value = v.contents entry.k

/-- The first entries bring a key to the version `c'` that the others are after, whatever the
reader had for it, or leave a value that is as good at `c'` as it was. -/
theorem Log.page {v : View κ ρ} {c c' : ℕ} {page rest : List (Entry κ ρ)} (h : Log v c (page ++ rest))
    (hrest : ∀ entry ∈ rest, c' < entry.version) (k : κ) :
    (∀ value, Current v c' k (page.foldl (told k) value)) ∨
      ((∀ value, page.foldl (told k) value = value) ∧ ∀ value, Current v c k value → Current v c' k value) := by
  by_cases hlater : ∃ entry ∈ rest, entry.k = k
  · -- The reader will hear of the key with the other entries.
    obtain ⟨entry, hentry, hkey⟩ := hlater
    refine Or.inl fun value => Or.inr ?_
    rw [← hkey]
    exact h.later entry (List.mem_append_right _ hentry) c' (hrest entry hentry)
  · have habsent : ∀ entry ∈ rest, entry.k ≠ k := fun entry hentry hkey => hlater ⟨entry, hentry, hkey⟩
    by_cases hpage : ∃ entry ∈ page, entry.k = k
    · obtain ⟨entry, hentry, hkey, hnewest, hvalue⟩ :=
        foldl_told_of_present (List.pairwise_append.mp h.sorted).1 hpage
      refine Or.inl fun value => Or.inl ?_
      rw [hvalue value, ← hkey]
      apply h.newest entry (List.mem_append_left _ hentry)
      intro other hother hotherKey
      rcases List.mem_append.mp hother with hmem | hmem
      · exact hnewest other hmem (hotherKey.trans hkey)
      · exact absurd (hotherKey.trans hkey) (habsent other hmem)
    · have hnone : ∀ entry ∈ page, entry.k ≠ k := fun entry hentry hkey => hpage ⟨entry, hentry, hkey⟩
      refine Or.inr ⟨fun value => foldl_told_of_absent hnone value, fun value hcurrent => Or.inl ?_⟩
      apply hcurrent.exact
      intro hheard
      obtain ⟨entry, hentry, hkey⟩ := h.heard k hheard
      rcases List.mem_append.mp hentry with hmem | hmem
      · exact hnone entry hmem hkey
      · exact habsent entry hmem hkey

end Delegatus.CompactedFeeds
