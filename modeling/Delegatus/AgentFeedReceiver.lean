import Delegatus.AgentFeedPages

/-!
# What the receiver of an agent feed holds

The rows of a receiver are read by key (`Rows.row?`).  The entries of an answer are applied one after
the other (`row?_apply`), and the bounds drop no row of rows that fit (`boundAll_perm`).  A page of a
snapshot brings the gathered rows from one part of the snapshot to the next (`gather_page`).
-/

namespace Delegatus.AgentFeed

open CompactedFeeds

variable {γ : Type*} {projects : List String}

/-- All rows, lanes last. -/
def Rows.all (held : Rows γ) : List (Row γ) := held.rows.rows ++ held.lanes.rows

theorem Rows.all_nodup (held : Rows γ) : (held.all.map Row.k).Nodup := by
  rw [Rows.all, List.map_append, List.nodup_append]
  refine ⟨held.rows.nodup, held.lanes.nodup, ?_⟩
  rintro a ha b hb rfl
  obtain ⟨row, hrow, hkey⟩ := List.mem_map.mp ha
  obtain ⟨lane, hlane, hlaneKey⟩ := List.mem_map.mp hb
  have hkind := held.lanes_key lane hlane
  rw [hlaneKey, ← hkey, held.rows_key row hrow] at hkind
  exact Bool.false_ne_true hkind

def Rows.row? (held : Rows γ) (k : Key) : Option (Row γ) := lookup held.all k

theorem Rows.row?_eq_some {held : Rows γ} {k : Key} {row : Row γ} :
    held.row? k = some row ↔ row ∈ held.all ∧ row.k = k := lookup_eq_some held.all_nodup

theorem Rows.mem_all {held : Rows γ} {row : Row γ} :
    row ∈ held.all ↔ (isLaneKey row.k = false ∧ row ∈ held.rows.rows) ∨
      (isLaneKey row.k = true ∧ row ∈ held.lanes.rows) := by
  rw [Rows.all, List.mem_append]
  constructor
  · rintro (hrow | hlane)
    · exact Or.inl ⟨held.rows_key row hrow, hrow⟩
    · exact Or.inr ⟨held.lanes_key row hlane, hlane⟩
  · exact Or.imp And.right And.right

/-! ### Applying the entries -/

theorem Rows.mem_delete {held : Rows γ} {k : Key} {row : Row γ} :
    row ∈ (held.delete k).all ↔ row ∈ held.all ∧ row.k ≠ k := by
  rw [Rows.mem_all, Rows.mem_all, Rows.delete]
  by_cases hrow : isLaneKey row.k = true <;> by_cases hk : isLaneKey k = true
  · simp [hrow, hk]
  · have hne : row.k ≠ k := fun heq => hk (heq ▸ hrow)
    simp [hrow, hk, hne]
  · have hne : row.k ≠ k := fun heq => hrow (heq ▸ hk)
    simp [hrow, hk, hne]
  · simp [hrow, hk]

theorem Rows.mem_set {held : Rows γ} {row other : Row γ} :
    other ∈ (held.set row).all ↔ other = row ∨ (other ∈ held.all ∧ other.k ≠ row.k) := by
  rw [Rows.mem_all, Rows.mem_all, Rows.set]
  by_cases hother : isLaneKey other.k = true <;> by_cases hrow : isLaneKey row.k = true
  · simp [hother, hrow, Table.mem_set]
  · have hne : other.k ≠ row.k := fun heq => hrow (heq ▸ hother)
    have hne' : other ≠ row := fun heq => hne (congrArg Row.k heq)
    simp [hother, hrow, hne, hne']
  · have hne : other.k ≠ row.k := fun heq => hother (heq ▸ hrow)
    have hne' : other ≠ row := fun heq => hne (congrArg Row.k heq)
    simp [hother, hrow, hne, hne']
  · simp [hother, hrow, Table.mem_set]

/-- A row of a change of a project that is shared. -/
def SharedChange (projects : List String) : Change γ → Prop
  | .put row => row.p ∈ projects
  | .gone _ => True

theorem row?_applyChange {held : Rows γ} {change : Change γ} (h : SharedChange projects change) (k : Key) :
    (applyChange projects held change).row? k = hear k (held.row? k) change := by
  apply Option.ext
  intro other
  cases change with
  | put row =>
    have hshared : row.p ∈ projects := h
    rw [applyChange, if_pos hshared, Rows.row?_eq_some, Rows.mem_set, hear, Change.key, Change.row?]
    split
    · next hkey =>
      rw [Option.some_inj]
      constructor
      · rintro ⟨rfl | ⟨-, hne⟩, hother⟩
        · rfl
        · exact absurd (hother.trans hkey.symm) hne
      · rintro rfl
        exact ⟨Or.inl rfl, hkey⟩
    · next hkey =>
      rw [Rows.row?_eq_some]
      constructor
      · rintro ⟨rfl | ⟨hmem, -⟩, hother⟩
        · exact absurd hother hkey
        · exact ⟨hmem, hother⟩
      · rintro ⟨hmem, hother⟩
        exact ⟨Or.inr ⟨hmem, fun heq => hkey (heq.symm.trans hother)⟩, hother⟩
  | gone gone =>
    rw [applyChange, Rows.row?_eq_some, Rows.mem_delete, hear, Change.key, Change.row?]
    split
    · next hkey =>
      constructor
      · rintro ⟨⟨-, hne⟩, hother⟩
        exact absurd (hother.trans hkey.symm) hne
      · intro hnone
        cases hnone
    · next hkey =>
      rw [Rows.row?_eq_some]
      constructor
      · rintro ⟨⟨hmem, -⟩, hother⟩
        exact ⟨hmem, hother⟩
      · rintro ⟨hmem, hother⟩
        exact ⟨⟨hmem, fun heq => hkey (heq.symm.trans hother)⟩, hother⟩

/-- The entries of an answer, applied to the rows of each key. -/
theorem row?_apply {held : Rows γ} {changes : List (Change γ)}
    (h : ∀ change ∈ changes, SharedChange projects change) (k : Key) :
    (changes.foldl (applyChange projects) held).row? k = changes.foldl (hear k) (held.row? k) := by
  induction changes generalizing held with
  | nil => rfl
  | cons first rest ih =>
    rw [List.foldl_cons, List.foldl_cons, ih fun change hchange => h change (List.mem_cons_of_mem _ hchange),
      row?_applyChange (h first List.mem_cons_self)]

def Rows.Shared (projects : List String) (held : Rows γ) : Prop := ∀ row ∈ held.all, row.p ∈ projects

theorem Rows.Shared.apply {held : Rows γ} (h : held.Shared projects) (changes : List (Change γ)) :
    (changes.foldl (applyChange projects) held).Shared projects := by
  induction changes generalizing held with
  | nil => exact h
  | cons first rest ih =>
    apply ih
    intro row hrow
    cases first with
    | gone k => exact h row (Rows.mem_delete.mp hrow).1
    | put new =>
      rw [applyChange] at hrow
      split at hrow
      · next hshared =>
        rcases Rows.mem_set.mp hrow with rfl | ⟨hmem, -⟩
        · exact hshared
        · exact h row hmem
      · exact h row hrow

/-! ### The bounds -/

theorem Rows.mem_of_mem_boundAll {held : Rows γ} {row : Row γ} (h : row ∈ (boundAll held).all) :
    row ∈ held.all := by
  rw [Rows.all, List.mem_append] at h ⊢
  exact h.imp mem_of_mem_boundRows mem_of_mem_boundLanes

/-- The bounds leave the row of a key, or drop it. -/
theorem row?_boundAll (held : Rows γ) (k : Key) :
    (boundAll held).row? k = held.row? k ∨
      ((boundAll held).row? k = none ∧
        ∃ row ∈ held.all, row ∉ (boundAll held).all ∧ row.k = k) := by
  cases hrow : held.row? k with
  | none =>
    refine Or.inl (Option.eq_none_iff_forall_ne_some.mpr fun row hbound => ?_)
    obtain ⟨hmem, hkey⟩ := Rows.row?_eq_some.mp hbound
    rw [Rows.row?_eq_some.mpr ⟨Rows.mem_of_mem_boundAll hmem, hkey⟩] at hrow
    exact nomatch hrow
  | some row =>
    obtain ⟨hmem, hkey⟩ := Rows.row?_eq_some.mp hrow
    by_cases hkept : row ∈ (boundAll held).all
    · exact Or.inl (Rows.row?_eq_some.mpr ⟨hkept, hkey⟩)
    · refine Or.inr ⟨Option.eq_none_iff_forall_ne_some.mpr fun other hother => ?_, row, hmem, hkept, hkey⟩
      obtain ⟨hotherMem, hotherKey⟩ := Rows.row?_eq_some.mp hother
      have hsame := Rows.row?_eq_some.mpr ⟨Rows.mem_of_mem_boundAll hotherMem, hotherKey⟩
      rw [hrow] at hsame
      exact hkept (Option.some.inj hsame ▸ hotherMem)

theorem filter_agents (held : Rows γ) : (held.all.filter fun row => !isLaneKey row.k) = held.rows.rows := by
  rw [Rows.all, List.filter_append, List.filter_eq_self.mpr, List.filter_eq_nil_iff.mpr, List.append_nil]
  · intro row hrow
    simp [held.lanes_key row hrow]
  · intro row hrow
    simp [held.rows_key row hrow]

theorem filter_lanes (held : Rows γ) : (held.all.filter fun row => isLaneKey row.k) = held.lanes.rows := by
  rw [Rows.all, List.filter_append, filter_lanes_of_agents held.rows_key, List.nil_append,
    List.filter_eq_self]
  exact held.lanes_key

/-- The bounds drop no row of rows that fit. -/
theorem boundAll_perm {held : Rows γ} (h : Fits projects held.all) : (boundAll held).all.Perm held.all := by
  refine List.Perm.append ?_ ?_
  · show (boundRows held.rows).rows.Perm held.rows.rows
    have hperm := List.perm_insertionSort (fun a b => seatOrder a b = true) held.rows.rows
    unfold boundRows
    split
    · have hproject : ∀ p, ((held.rows.rows.insertionSort fun a b => seatOrder a b).filter
          fun row => row.p = p).length ≤ 50 := by
        intro p
        rw [(hperm.filter _).length_eq, ← filter_agents held, List.filter_filter]
        simpa only [Bool.and_comm] using h.project p
      have hall : (held.rows.rows.insertionSort fun a b => seatOrder a b).length ≤ 200 := by
        rw [List.length_insertionSort, ← filter_agents held]
        exact h.agents
      show (bounded _).Perm _
      rw [bounded_eq_self hproject hall]
      exact hperm
    · exact List.Perm.refl _
  · show (boundLanes held.lanes).rows.Perm held.lanes.rows
    have hlanes := h.lanes
    rw [filter_lanes] at hlanes
    rw [boundLanes, if_neg (Nat.not_lt.mpr hlanes)]

theorem Rows.ext_all {a b : Rows γ} (hrows : a.rows.rows = b.rows.rows) (hlanes : a.lanes.rows = b.lanes.rows) :
    a = b := by
  have hrows' := Table.ext_rows hrows
  have hlanes' := Table.ext_rows hlanes
  cases a
  cases b
  simp only at hrows' hlanes'
  subst hrows' hlanes'
  rfl

theorem keepShared_eq {held : Rows γ} (h : held.Shared projects) : keepShared projects held = held := by
  apply Rows.ext_all
  · show (held.rows.rows.filter fun row => row.p ∈ projects) = held.rows.rows
    rw [List.filter_eq_self]
    intro row hrow
    simpa using h row (List.mem_append_left _ hrow)
  · show (held.lanes.rows.filter fun row => row.p ∈ projects) = held.lanes.rows
    rw [List.filter_eq_self]
    intro row hrow
    simpa using h row (List.mem_append_right _ hrow)

theorem Rows.Shared.bound {held : Rows γ} (h : held.Shared projects) : (boundAll held).Shared projects :=
  fun row hrow => h row (Rows.mem_of_mem_boundAll hrow)

/-! ### Pages of a snapshot -/

theorem foldl_hear_put {rows : List (Row γ)} (h : (rows.map Row.k).Nodup) (k : Key) (value : Option (Row γ)) :
    (rows.map Change.put).foldl (hear k) value = (lookup rows k).or value := by
  induction rows generalizing value with
  | nil => rfl
  | cons first rest ih =>
    obtain ⟨hfresh, hrest⟩ := List.nodup_cons.mp h
    rw [List.map_cons, List.foldl_cons, ih hrest, lookup, lookup, List.find?_cons, hear, Change.key]
    by_cases hfirst : first.k = k
    · have hnone : (rest.find? fun row => row.k = k) = none := by
        rw [List.find?_eq_none]
        intro row hmem hkey
        apply hfresh
        rw [hfirst, ← of_decide_eq_true hkey]
        exact List.mem_map_of_mem hmem
      rw [hnone]
      simp [hfirst, Change.row?]
    · simp [hfirst]

theorem take_page {L rows rest : List (Row γ)} {n : ℕ} (hsplit : L.drop n = rows ++ rest) :
    L.take (n + rows.length) = L.take n ++ rows := by
  rw [List.take_add, hsplit, List.take_left]

/-- A page of a snapshot is added to the rows before it; a page that is there already adds nothing. -/
theorem gather_page {L rows rest : List (Row γ)} {n : ℕ} {target : Rows γ} (hL : Fits projects L)
    (hsplit : L.drop n = rows ++ rest)
    (htarget : target.all.Perm (L.take n) ∨ target.all.Perm (L.take (n + rows.length))) :
    (boundAll ((rows.map Change.put).foldl (applyChange projects) target)).all.Perm
      (L.take (n + rows.length)) := by
  have hfits := hL.sublist (List.take_sublist (n + rows.length) L)
  have hpart := take_page hsplit
  have hrows : rows.Sublist (L.take (n + rows.length)) := hpart ▸ List.sublist_append_right _ _
  have hshared : ∀ change ∈ rows.map Change.put, SharedChange projects change := by
    intro change hchange
    obtain ⟨row, hrow, rfl⟩ := List.mem_map.mp hchange
    exact hfits.shared row (hrows.subset hrow)
  have hperm : ((rows.map Change.put).foldl (applyChange projects) target).all.Perm
      (L.take (n + rows.length)) := by
    apply perm_of_lookup (Rows.all_nodup _) hfits.nodup
    intro k
    refine (row?_apply hshared k).trans ?_
    rw [foldl_hear_put (hfits.nodup.sublist (hrows.map _))]
    cases hrow : lookup rows k with
    | some row =>
      obtain ⟨hmem, hkey⟩ := (lookup_eq_some (hfits.nodup.sublist (hrows.map _))).mp hrow
      exact ((lookup_eq_some hfits.nodup).mpr ⟨hrows.subset hmem, hkey⟩).symm
    | none =>
      rw [Option.none_or]
      rcases htarget with hbefore | hafter
      · rw [Rows.row?, lookup_perm target.all_nodup hbefore, hpart, lookup, lookup, List.find?_append]
        rw [lookup] at hrow
        rw [hrow, Option.or_none]
      · exact lookup_perm target.all_nodup hafter k
  exact (boundAll_perm (hfits.perm hperm)).trans hperm

end Delegatus.AgentFeed
