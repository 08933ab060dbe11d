import Delegatus.Entries
import Mathlib.Data.List.Sort

/-!
# Clocks over a floor

A map of keys to clocks forgets some of them, and what it forgets raises a floor: a key without
a clock reads the floor.  A write merges several maps by maximum while it renames their keys,
stamps the keys that it changes, and compacts: the keys that are still in use keep their clocks,
of the others so many as a limit allows.

A key's reading does not fall over a write unless its clock is left behind by the renaming, or
it joins a key in use whose clock is below the reading (`readAt_le_write`).
-/

namespace Delegatus.FlooredClocks

variable {κ : Type*}

abbrev Clocks (κ : Type*) := Entries κ ℕ

structure Floored (κ : Type*) where
  clocks : Clocks κ
  floor : ℕ

/-- The clock of a key, else the floor. -/
def Floored.readAt [DecidableEq κ] (floored : Floored κ) (key : κ) : ℕ :=
  (floored.clocks.at? key).getD floored.floor

/-! ### Merging -/

section

variable [DecidableEq κ]

/-- An entry joins the clock that its new name has. -/
def join (rename : κ → κ) (clocks : Clocks κ) (entry : κ × ℕ) : Clocks κ :=
  clocks.set (rename entry.1, max ((clocks.at? (rename entry.1)).getD 0) entry.2)

/-- The clocks of several maps under their new names. -/
def merge (rename : κ → κ) (sources : List (Clocks κ)) : Clocks κ :=
  (sources.flatMap Table.rows).foldl (join rename) Table.empty

variable {rename : κ → κ} {start clocks : Clocks κ} {entries : List (κ × ℕ)} {key : κ} {clock : ℕ}

theorem at?_join (entry : κ × ℕ) (key : κ) : (join rename start entry).at? key =
    if key = rename entry.1 then some (max ((start.at? key).getD 0) entry.2) else start.at? key := by
  rw [join, Entries.at?_set]
  split_ifs with h
  · rw [h]
  · exact rfl

theorem join_grows (entry : κ × ℕ) (h : start.at? key = some clock) :
    ∃ joined, (join rename start entry).at? key = some joined ∧ clock ≤ joined := by
  rw [at?_join]
  split_ifs
  · exact ⟨_, rfl, by rw [h]; exact le_max_left _ _⟩
  · exact ⟨clock, h, le_rfl⟩

theorem foldl_join_grows (h : start.at? key = some clock) :
    ∃ joined, (entries.foldl (join rename) start).at? key = some joined ∧ clock ≤ joined := by
  induction entries generalizing start clock with
  | nil => exact ⟨clock, h, le_rfl⟩
  | cons entry rest ih =>
    obtain ⟨mid, hmid, hle⟩ := join_grows entry h
    obtain ⟨joined, hjoined, hle'⟩ := ih hmid
    exact ⟨joined, hjoined, hle.trans hle'⟩

theorem le_foldl_join {entry : κ × ℕ} (h : entry ∈ entries) :
    ∃ joined, (entries.foldl (join rename) start).at? (rename entry.1) = some joined ∧
      entry.2 ≤ joined := by
  induction entries generalizing start with
  | nil => cases h
  | cons first rest ih =>
    rcases List.mem_cons.mp h with rfl | h
    · have hfirst : (join rename start entry).at? (rename entry.1) =
          some (max ((start.at? (rename entry.1)).getD 0) entry.2) := by
        rw [at?_join, if_pos rfl]
      obtain ⟨joined, hjoined, hle⟩ := @foldl_join_grows _ _ rename _ rest _ _ hfirst
      exact ⟨joined, hjoined, (le_max_right _ _).trans hle⟩
    · exact ih h

/-- A joined clock is one of those that were joined. -/
theorem foldl_join_made (h : (entries.foldl (join rename) start).at? key = some clock) :
    start.at? key = some clock ∨ ∃ entry ∈ entries, rename entry.1 = key ∧ entry.2 = clock := by
  induction entries generalizing start with
  | nil => exact Or.inl h
  | cons entry rest ih =>
    rcases ih h with hjoin | ⟨other, hother, hmade⟩
    · rw [at?_join] at hjoin
      split_ifs at hjoin with hkey
      · have hmax := Option.some.inj hjoin
        by_cases hle : (start.at? key).getD 0 ≤ entry.2
        · rw [max_eq_right hle] at hmax
          exact Or.inr ⟨entry, List.mem_cons_self, hkey.symm, hmax⟩
        · rw [max_eq_left (le_of_not_ge hle)] at hmax
          cases hstart : start.at? key with
          | some held =>
            rw [hstart, Option.getD_some] at hmax
            exact Or.inl (by rw [hmax])
          | none =>
            rw [hstart, Option.getD_none] at hle
            exact absurd (Nat.zero_le _) hle
      · exact Or.inl hjoin
    · exact Or.inr ⟨other, List.mem_cons_of_mem _ hother, hmade⟩

theorem le_merge {sources : List (Clocks κ)} {source : Clocks κ} (hsource : source ∈ sources)
    {entry : κ × ℕ} (h : entry ∈ source.rows) :
    ∃ joined, (merge rename sources).at? (rename entry.1) = some joined ∧ entry.2 ≤ joined :=
  le_foldl_join (List.mem_flatMap.mpr ⟨source, hsource, h⟩)

theorem merge_made {sources : List (Clocks κ)} (h : (merge rename sources).at? key = some clock) :
    ∃ source ∈ sources, ∃ entry ∈ source.rows, rename entry.1 = key ∧ entry.2 = clock := by
  rcases foldl_join_made h with hempty | ⟨entry, hentry, hmade⟩
  · cases hempty
  · obtain ⟨source, hsource, hmem⟩ := List.mem_flatMap.mp hentry
    exact ⟨source, hsource, entry, hmem, hmade⟩

end

/-! ### Stamping -/

/-- Each of the keys takes the revision. -/
def stampKeys [DecidableEq κ] (keys : List κ) (revision : ℕ) (clocks : Clocks κ) : Clocks κ :=
  keys.foldl (fun clocks key => clocks.set (key, revision)) clocks

theorem at?_stampKeys [DecidableEq κ] (keys : List κ) (revision : ℕ) (clocks : Clocks κ) (key : κ) :
    (stampKeys keys revision clocks).at? key =
      if key ∈ keys then some revision else clocks.at? key := by
  induction keys generalizing clocks with
  | nil => exact (if_neg List.not_mem_nil).symm
  | cons first rest ih =>
    refine (ih _).trans ?_
    rw [Entries.at?_set]
    by_cases hrest : key ∈ rest
    · rw [if_pos hrest, if_pos (List.mem_cons_of_mem _ hrest)]
    · by_cases hfirst : key = first
      · rw [if_neg hrest, if_pos hfirst, if_pos (by rw [hfirst]; exact List.mem_cons_self)]
      · rw [if_neg hrest, if_neg hfirst, if_neg]
        rw [List.mem_cons, not_or]
        exact ⟨hfirst, hrest⟩

/-! ### Compaction -/

theorem foldl_max_le {α : Type*} {f : α → ℕ} {xs : List α} {start bound : ℕ} (hstart : start ≤ bound)
    (h : ∀ x ∈ xs, f x ≤ bound) : xs.foldl (fun highest x => max highest (f x)) start ≤ bound := by
  induction xs generalizing start with
  | nil => exact hstart
  | cons x rest ih =>
    exact ih (max_le hstart (h x List.mem_cons_self)) (fun y hy => h y (List.mem_cons_of_mem _ hy))

theorem le_foldl_max {α : Type*} (f : α → ℕ) (xs : List α) (start : ℕ) :
    start ≤ xs.foldl (fun highest x => max highest (f x)) start ∧
      ∀ x ∈ xs, f x ≤ xs.foldl (fun highest x => max highest (f x)) start := by
  induction xs generalizing start with
  | nil => exact ⟨le_rfl, fun x hx => absurd hx List.not_mem_nil⟩
  | cons first rest ih =>
    obtain ⟨hstart, hrest⟩ := ih (max start (f first))
    refine ⟨(le_max_left _ _).trans hstart, fun x hx => ?_⟩
    rcases List.mem_cons.mp hx with rfl | hx
    · exact (le_max_right _ _).trans hstart
    · exact hrest x hx

section

variable (inUse : κ → Bool) (earlier : κ × ℕ → κ × ℕ → Prop) [DecidableRel earlier] (limit floor : ℕ)

/-- The clocks of the keys no longer in use, in the order in which they are kept. -/
def retired (clocks : Clocks κ) : List (κ × ℕ) :=
  (clocks.rows.filter (fun entry => !inUse entry.1)).insertionSort earlier

/-- The floor that the evicted clocks leave. -/
def raisedFloor (clocks : Clocks κ) : ℕ :=
  ((retired inUse earlier clocks).drop limit).foldl (fun floor entry => max floor entry.2) floor

variable {inUse earlier limit floor} {clocks : Clocks κ} {key : κ} {clock : ℕ}

theorem mem_retired {entry : κ × ℕ} :
    entry ∈ retired inUse earlier clocks ↔ entry ∈ clocks.rows ∧ inUse entry.1 = false := by
  rw [retired, List.mem_insertionSort, List.mem_filter, Bool.not_eq_true']

theorem nodup_kept : ((clocks.rows.filter (fun entry => inUse entry.1) ++
    (retired inUse earlier clocks).take limit).map Prod.fst).Nodup := by
  have hall : ((clocks.rows.filter (fun entry => inUse entry.1) ++
      clocks.rows.filter (fun entry => !inUse entry.1)).map Prod.fst).Nodup :=
    (((List.filter_append_perm _ _).map Prod.fst).nodup_iff).mpr clocks.nodup
  have hsorted : ((clocks.rows.filter (fun entry => inUse entry.1) ++
      retired inUse earlier clocks).map Prod.fst).Nodup :=
    ((((List.perm_insertionSort earlier _).append_left _).map Prod.fst).nodup_iff).mpr hall
  exact hsorted.sublist (((List.take_sublist limit _).append_left _).map Prod.fst)

variable [DecidableEq κ]

variable (inUse earlier limit floor) in
/-- The keys in use keep their clocks, of the others the first ones, and of these the ones above
the floor that the rest leaves. -/
def compact (clocks : Clocks κ) : Floored κ :=
  let raised := raisedFloor inUse earlier limit floor clocks
  { clocks := (Table.ofList (clocks.rows.filter (fun entry => inUse entry.1) ++
      (retired inUse earlier clocks).take limit)).filter
        (fun entry => inUse entry.1 || decide (raised < entry.2))
    floor := raised }

theorem floor_le_compact : floor ≤ (compact inUse earlier limit floor clocks).floor :=
  (le_foldl_max Prod.snd _ _).1

theorem compact_floor_le {bound : ℕ} (hfloor : floor ≤ bound)
    (h : ∀ entry ∈ clocks.rows, entry.2 ≤ bound) :
    (compact inUse earlier limit floor clocks).floor ≤ bound :=
  foldl_max_le hfloor fun entry hentry => h entry (mem_retired.mp (List.mem_of_mem_drop hentry)).1

theorem at?_compact : (compact inUse earlier limit floor clocks).clocks.at? key = some clock ↔
    ((key, clock) ∈ clocks.rows ∧ inUse key = true) ∨
      ((key, clock) ∈ (retired inUse earlier clocks).take limit ∧
        raisedFloor inUse earlier limit floor clocks < clock) := by
  rw [Entries.at?_eq_some]
  unfold compact Table.filter
  dsimp only
  rw [List.mem_filter, Table.rows_ofList nodup_kept, List.mem_append, List.mem_filter, Bool.or_eq_true,
    decide_eq_true_iff]
  constructor
  · rintro ⟨⟨hmem, huse⟩ | hmem, hkept⟩
    · exact Or.inl ⟨hmem, huse⟩
    · rcases hkept with huse | hlt
      · have hretired := (mem_retired.mp (List.mem_of_mem_take hmem)).2
        rw [huse] at hretired
        cases hretired
      · exact Or.inr ⟨hmem, hlt⟩
  · rintro (⟨hmem, huse⟩ | ⟨hmem, hlt⟩)
    · exact ⟨Or.inl ⟨hmem, huse⟩, Or.inl huse⟩
    · exact ⟨Or.inr hmem, Or.inr hlt⟩

theorem compact_made (h : (compact inUse earlier limit floor clocks).clocks.at? key = some clock) :
    clocks.at? key = some clock := by
  rw [Entries.at?_eq_some]
  rcases at?_compact.mp h with ⟨hmem, -⟩ | ⟨hmem, -⟩
  · exact hmem
  · exact (mem_retired.mp (List.mem_of_mem_take hmem)).1

/-- A key reads no less than its clock: an evicted one is below the floor. -/
theorem le_readAt_compact (h : clocks.at? key = some clock) :
    clock ≤ (compact inUse earlier limit floor clocks).readAt key := by
  have hmem := Entries.at?_eq_some.mp h
  unfold Floored.readAt
  cases huse : inUse key with
  | true =>
    rw [at?_compact.mpr (Or.inl ⟨hmem, huse⟩), Option.getD_some]
  | false =>
    have hretired := (@mem_retired _ inUse earlier _ _ _).mpr ⟨hmem, huse⟩
    rw [← List.take_append_drop limit (retired inUse earlier clocks), List.mem_append] at hretired
    rcases hretired with htake | hdrop
    · by_cases hlt : raisedFloor inUse earlier limit floor clocks < clock
      · rw [at?_compact.mpr (Or.inr ⟨htake, hlt⟩), Option.getD_some]
      · cases hkept : (compact inUse earlier limit floor clocks).clocks.at? key with
        | none => exact not_lt.mp hlt
        | some kept => exact (Option.some.inj ((compact_made hkept).symm.trans h)).ge
    · have hfloor : clock ≤ (compact inUse earlier limit floor clocks).floor :=
        (le_foldl_max Prod.snd _ _).2 _ hdrop
      cases hkept : (compact inUse earlier limit floor clocks).clocks.at? key with
      | none => exact hfloor
      | some kept => exact (Option.some.inj ((compact_made hkept).symm.trans h)).ge

/-- Only a key in use with a clock of its own reads below the floor. -/
theorem floor_le_readAt_compact (h : inUse key = false ∨ clocks.at? key = none) :
    floor ≤ (compact inUse earlier limit floor clocks).readAt key := by
  unfold Floored.readAt
  cases hkept : (compact inUse earlier limit floor clocks).clocks.at? key with
  | none => exact floor_le_compact
  | some kept =>
    rw [Option.getD_some]
    rcases h with huse | hnone
    · rcases at?_compact.mp hkept with ⟨-, huse'⟩ | ⟨-, hlt⟩
      · rw [huse] at huse'
        cases huse'
      · exact (le_trans floor_le_compact hlt.le)
    · rw [compact_made hkept] at hnone
      cases hnone

end

/-! ### Writes -/

/-- The highest floor of several maps. -/
def highestFloor (before : Floored κ) (inherited : List (Floored κ)) : ℕ :=
  inherited.foldl (fun highest source => max highest source.floor) before.floor

theorem highestFloor_le {before : Floored κ} {inherited : List (Floored κ)} {bound : ℕ}
    (hbefore : before.floor ≤ bound) (h : ∀ source ∈ inherited, source.floor ≤ bound) :
    highestFloor before inherited ≤ bound :=
  foldl_max_le hbefore h

theorem floor_le_highestFloor {before source : Floored κ} {inherited : List (Floored κ)}
    (h : source ∈ before :: inherited) : source.floor ≤ highestFloor before inherited := by
  obtain ⟨hbefore, hinherited⟩ := le_foldl_max Floored.floor inherited before.floor
  rcases List.mem_cons.mp h with rfl | h
  · exact hbefore
  · exact hinherited source h

section

variable [DecidableEq κ] (rename : κ → κ) (inUse : κ → Bool) (earlier : κ × ℕ → κ × ℕ → Prop)
  [DecidableRel earlier] (limit : ℕ) (changed : List κ) (revision : ℕ)

/-- A write merges what was there with what it inherits, stamps the keys that it changes and
compacts. -/
def write (before : Floored κ) (inherited : List (Floored κ)) : Floored κ :=
  compact inUse earlier limit (highestFloor before inherited)
    (stampKeys changed revision (merge rename ((before :: inherited).map Floored.clocks)))

/-- A map none of whose clocks is later than `bound`. -/
structure Floored.UpTo (floored : Floored κ) (bound : ℕ) : Prop where
  floor : floored.floor ≤ bound
  clocks : ∀ key clock, floored.clocks.at? key = some clock → clock ≤ bound

variable {rename inUse earlier limit changed revision} {before : Floored κ}
  {inherited : List (Floored κ)} {key : κ} {reading : ℕ}

theorem Floored.UpTo.readAt_le {bound : ℕ} (h : before.UpTo bound) (key : κ) :
    before.readAt key ≤ bound := by
  unfold Floored.readAt
  cases hclock : before.clocks.at? key with
  | none => exact h.floor
  | some clock => exact h.clocks key clock hclock

/-- A write is up to its revision, where what it merges is. -/
theorem write_upTo (hbefore : before.UpTo revision) (h : ∀ source ∈ inherited, source.UpTo revision) :
    (write rename inUse earlier limit changed revision before inherited).UpTo revision := by
  have hclocks : ∀ key clock, (stampKeys changed revision
      (merge rename ((before :: inherited).map Floored.clocks))).at? key = some clock →
        clock ≤ revision := by
    intro key clock hclock
    rw [at?_stampKeys] at hclock
    split_ifs at hclock
    · exact (Option.some.inj hclock).ge
    · obtain ⟨source, hsource, entry, hentry, -, rfl⟩ := merge_made hclock
      obtain ⟨floored, hfloored, rfl⟩ := List.mem_map.mp hsource
      have hat : floored.clocks.at? entry.1 = some entry.2 := Entries.at?_eq_some.mpr hentry
      rcases List.mem_cons.mp hfloored with rfl | hfloored
      · exact hbefore.clocks _ _ hat
      · exact (h floored hfloored).clocks _ _ hat
  constructor
  · apply compact_floor_le
    · exact highestFloor_le hbefore.floor fun source hsource => (h source hsource).floor
    · exact fun entry hentry => hclocks entry.1 entry.2 (Entries.at?_eq_some.mpr hentry)
  · exact fun key clock hclock => hclocks key clock (compact_made hclock)

/-- A changed key reads at least the revision. -/
theorem revision_le_readAt_write (h : key ∈ changed) :
    revision ≤ (write rename inUse earlier limit changed revision before inherited).readAt key := by
  apply le_readAt_compact
  rw [at?_stampKeys, if_pos h]

/-- **A reading does not fall over a write** where a merged clock of its key is as high, or the
highest floor is and the key is not in use or has no merged clock. -/
theorem readAt_le_write (hunchanged : key ∉ changed)
    (h : (∃ source ∈ before :: inherited, ∃ entry ∈ source.clocks.rows,
        rename entry.1 = key ∧ reading ≤ entry.2) ∨
      (reading ≤ highestFloor before inherited ∧ (inUse key = false ∨
        ∀ source ∈ before :: inherited, ∀ entry ∈ source.clocks.rows, rename entry.1 ≠ key))) :
    reading ≤ (write rename inUse earlier limit changed revision before inherited).readAt key := by
  rcases h with ⟨source, hsource, entry, hentry, rfl, hle⟩ | ⟨hle, hfree⟩
  · obtain ⟨joined, hjoined, hle'⟩ :=
      @le_merge _ _ rename _ _ (List.mem_map_of_mem hsource) entry hentry
    apply (hle.trans hle').trans
    apply le_readAt_compact
    rw [at?_stampKeys, if_neg hunchanged, hjoined]
  · apply hle.trans
    apply floor_le_readAt_compact
    rcases hfree with huse | hnone
    · exact Or.inl huse
    · right
      rw [at?_stampKeys, if_neg hunchanged]
      by_contra hsome
      obtain ⟨clock, hclock⟩ := Option.ne_none_iff_exists'.mp hsome
      obtain ⟨source, hsource, entry, hentry, hname, -⟩ := merge_made hclock
      obtain ⟨floored, hfloored, rfl⟩ := List.mem_map.mp hsource
      exact hnone floored hfloored entry hentry hname

end

end Delegatus.FlooredClocks
