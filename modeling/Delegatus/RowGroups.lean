import Delegatus.Entries
import Mathlib.Data.List.Count
import Mathlib.Data.List.Induction
import Mathlib.Logic.Function.Basic

/-!
# Rows kept by key, and their tallies

A table holds the rows of many keys; the rows of one key are its `group`, and `regroup` puts other
rows in their place.  A tally table counts rows by some property: each count is a row of its own,
changed by signed amounts, and a count that falls to zero is deleted.

`countP_regroup` says what a regrouping does to a count, and `Tallied.addAll` that a tally table
follows when it is changed by the difference.
-/

namespace Delegatus.RowGroups

/-! ### Groups -/

section Groups

variable {α κ : Type*} [DecidableEq κ] (key : α → κ)

/-- `SELECT … WHERE key = k`. -/
def group (rows : List α) (k : κ) : List α := rows.filter fun row => key row = k

/-- `DELETE … WHERE key = k`, and then `INSERT` of the new rows. -/
def regroup (rows : List α) (k : κ) (new : List α) : List α :=
  (rows.filter fun row => key row ≠ k) ++ new

variable {key}

theorem mem_group {rows : List α} {k : κ} {row : α} : row ∈ group key rows k ↔ row ∈ rows ∧ key row = k := by
  simp [group]

theorem group_regroup_self {rows new : List α} {k : κ} (h : ∀ row ∈ new, key row = k) :
    group key (regroup key rows k new) k = new := by
  have hnone : (rows.filter fun row => key row ≠ k).filter (fun row => key row = k) = [] := by
    rw [List.filter_eq_nil_iff]
    intro row hrow
    simpa using (List.mem_filter.mp hrow).2
  have hall : new.filter (fun row => key row = k) = new := by
    rw [List.filter_eq_self]
    exact fun row hrow => by simpa using h row hrow
  rw [group, regroup, List.filter_append, hnone, hall, List.nil_append]

theorem group_regroup_of_ne {rows new : List α} {k k' : κ} (h : ∀ row ∈ new, key row = k)
    (hne : k' ≠ k) : group key (regroup key rows k new) k' = group key rows k' := by
  have hnew : new.filter (fun row => key row = k') = [] := by
    rw [List.filter_eq_nil_iff]
    intro row hrow
    simpa [h row hrow] using hne.symm
  rw [group, regroup, List.filter_append, hnew, List.append_nil, group, List.filter_filter]
  apply List.filter_congr
  intro row _
  by_cases hkey : key row = k'
  · simp [hkey, hne]
  · simp [hkey]

variable (key) in
/-- What a regrouping does to a count. -/
theorem countP_regroup (p : α → Bool) (rows new : List α) (k : κ) :
    (regroup key rows k new).countP p + (group key rows k).countP p = rows.countP p + new.countP p := by
  have hsplit := List.countP_eq_countP_filter_add rows p fun row => decide (key row = k)
  have hnot : (rows.filter fun row => !decide (key row = k)) = rows.filter fun row => key row ≠ k := by
    simp
  rw [hnot] at hsplit
  rw [regroup, List.countP_append, group]
  omega

/-! ### Groups in order of first appearance -/

/-- The rows of one key; there is at least one. -/
structure Group (κ α : Type*) where
  key : κ
  first : α
  rest : List α

def Group.rows (g : Group κ α) : List α := g.first :: g.rest

def Group.last (g : Group κ α) : α := g.rest.getLast?.getD g.first

variable (key) in
/-- A row joins the group of its key, or opens one. -/
def collect (groups : List (Group κ α)) (row : α) : List (Group κ α) :=
  if groups.any fun g => g.key = key row then
    groups.map fun g => if g.key = key row then { g with rest := g.rest ++ [row] } else g
  else groups ++ [{ key := key row, first := row, rest := [] }]

variable (key) in
def groups (rows : List α) : List (Group κ α) := rows.foldl (collect key) []

theorem keys_collect (gs : List (Group κ α)) (row : α) :
    (collect key gs row).map Group.key =
      if key row ∈ gs.map Group.key then gs.map Group.key else gs.map Group.key ++ [key row] := by
  have hany : (gs.any fun g => decide (g.key = key row)) = true ↔ key row ∈ gs.map Group.key := by
    simp
  unfold collect
  by_cases hold : key row ∈ gs.map Group.key
  · rw [if_pos (hany.mpr hold), if_pos hold, List.map_map]
    apply List.map_congr_left
    intro g _
    dsimp only [Function.comp]
    split <;> rfl
  · rw [if_neg (fun h => hold (hany.mp h)), if_neg hold, List.map_append]
    rfl

theorem groups_concat (rows : List α) (row : α) :
    groups key (rows ++ [row]) = collect key (groups key rows) row := by
  rw [groups, List.foldl_append]
  rfl

/-- The groups are those of the rows, one for each key. -/
structure Grouped (key : α → κ) (rows : List α) (gs : List (Group κ α)) : Prop where
  nodup : (gs.map Group.key).Nodup
  holds : ∀ g ∈ gs, g.rows = group key rows g.key
  covered : ∀ row ∈ rows, key row ∈ gs.map Group.key

theorem Grouped.collect {rows : List α} {gs : List (Group κ α)} (h : Grouped key rows gs) (row : α) :
    Grouped key (rows ++ [row]) (RowGroups.collect key gs row) := by
  have hgroup : ∀ k, group key (rows ++ [row]) k = group key rows k ++ if key row = k then [row] else [] := by
    intro k
    by_cases hk : key row = k
    · simp [group, hk]
    · simp [group, hk]
  have hkeys := @keys_collect _ _ _ key gs row
  constructor
  · rw [hkeys]
    split
    · exact h.nodup
    · next hnew =>
      apply h.nodup.append (List.nodup_singleton _)
      simpa using hnew
  · intro g hg
    unfold RowGroups.collect at hg
    split at hg
    · obtain ⟨old, hold, rfl⟩ := List.mem_map.mp hg
      have hrows := h.holds old hold
      split
      · next heq =>
        rw [hgroup, if_pos heq.symm, ← hrows]
        rfl
      · next hne =>
        rw [hgroup, if_neg (Ne.symm hne), List.append_nil]
        exact hrows
    · next hany =>
      rcases List.mem_append.mp hg with hold | hlast
      · have hne : key row ≠ g.key := by
          intro heq
          apply hany
          rw [List.any_eq_true]
          exact ⟨g, hold, by simp [heq]⟩
        rw [hgroup, if_neg hne, List.append_nil]
        exact h.holds g hold
      · rw [List.mem_singleton.mp hlast]
        have hnone : group key rows (key row) = [] := by
          rw [group, List.filter_eq_nil_iff]
          intro other hother
          have hcovered := h.covered other hother
          intro hsame
          apply hany
          obtain ⟨g', hg', heq⟩ := List.mem_map.mp hcovered
          rw [List.any_eq_true]
          exact ⟨g', hg', by simp [heq, of_decide_eq_true hsame]⟩
        rw [hgroup, if_pos rfl, hnone]
        rfl
  · intro other hother
    rw [hkeys]
    rcases List.mem_append.mp hother with hold | hlast
    · have hcovered := h.covered other hold
      split
      · exact hcovered
      · exact List.mem_append_left _ hcovered
    · rw [List.mem_singleton.mp hlast]
      split
      · assumption
      · exact List.mem_append_right _ (List.mem_singleton_self _)

theorem grouped (rows : List α) : Grouped key rows (groups key rows) := by
  induction rows using List.reverseRecOn with
  | nil => exact ⟨List.nodup_nil, by simp [groups], by simp⟩
  | append_singleton rows row ih =>
    rw [groups_concat]
    exact ih.collect row

/-- The first group is that of the first row. -/
theorem head_groups (row : α) (rows : List α) :
    ((groups key (row :: rows)).map Group.key).head? = some (key row) := by
  induction rows using List.reverseRecOn with
  | nil => rfl
  | append_singleton rows last ih =>
    rw [← List.cons_append, groups_concat, keys_collect]
    split
    · exact ih
    · rw [List.head?_append, ih]
      rfl

end Groups

/-! ### Tallies -/

section Tallies

variable {ι κ : Type*} [DecidableEq ι] [DecidableEq κ]

/-- `INSERT … ON CONFLICT DO UPDATE SET n = n + excluded.n`, and then `DELETE … WHERE n <= 0`. -/
def add (tallies : Entries κ Int) (k : κ) (amount : Int) : Entries κ Int :=
  let total := (tallies.at? k).getD 0 + amount
  if total ≤ 0 then tallies.delete k else tallies.set (k, total)

/-- The table holds the counts that are not zero. -/
def Tallied (tallies : Entries κ Int) (n : κ → ℕ) : Prop :=
  ∀ k, tallies.at? k = if n k = 0 then none else some (n k : Int)

theorem tallied_empty : Tallied (Table.empty : Entries κ Int) fun _ => 0 := fun _ => rfl

theorem Tallied.add {tallies : Entries κ Int} {n m : κ → ℕ} {k : κ} {amount : Int}
    (h : Tallied tallies n) (hk : (m k : Int) = n k + amount) (hother : ∀ k', k' ≠ k → m k' = n k') :
    Tallied (RowGroups.add tallies k amount) m := by
  have hold : (tallies.at? k).getD 0 = (n k : Int) := by
    rw [h k]
    split
    · next hzero => simp [hzero]
    · rfl
  intro k'
  unfold RowGroups.add
  simp only [hold, ← hk]
  split
  · next hzero =>
    rw [Entries.at?_delete]
    by_cases hkk : k' = k
    · subst hkk
      have hm : m k' = 0 := by omega
      simp [hm]
    · rw [if_neg hkk, h k', hother k' hkk]
  · next hpos =>
    rw [Entries.at?_set]
    by_cases hkk : k' = k
    · subst hkk
      have hm : m k' ≠ 0 := by omega
      simp [hm]
    · rw [if_neg hkk, h k', hother k' hkk]

/-- How often each element occurs, times the amount: `delta.set(x, (delta.get(x) ?? 0) + amount)`. -/
def deltas (xs : List ι) (amount : Int) : Entries ι Int :=
  xs.foldl (fun delta x => delta.set (x, (delta.at? x).getD 0 + amount)) Table.empty

theorem at?_deltas (xs : List ι) (amount : Int) (x : ι) :
    (deltas xs amount).at? x = if x ∈ xs then some (amount * xs.count x) else none := by
  induction xs using List.reverseRecOn generalizing x with
  | nil => rfl
  | append_singleton xs last ih =>
    rw [deltas, List.foldl_append, ← deltas, List.foldl_cons, List.foldl_nil, Entries.at?_set]
    by_cases hlast : x = last
    · subst hlast
      have hbefore : ((deltas xs amount).at? x).getD 0 = amount * xs.count x := by
        rw [ih]
        split
        · rfl
        · next hmem => simp [List.count_eq_zero_of_not_mem hmem]
      rw [if_pos rfl, hbefore]
      simp [List.count_append, Int.mul_add]
    · have hcount : (xs ++ [last]).count x = xs.count x := by
        simp [List.count_append, Ne.symm hlast]
      rw [if_neg hlast, ih, hcount]
      simp [hlast]

theorem mem_deltas {xs : List ι} {amount d : Int} {x : ι} :
    (x, d) ∈ (deltas xs amount).rows ↔ x ∈ xs ∧ d = amount * xs.count x := by
  rw [← Entries.at?_eq_some, at?_deltas]
  split
  · next hmem =>
    rw [Option.some.injEq]
    exact ⟨fun heq => ⟨hmem, heq.symm⟩, fun hboth => hboth.2.symm⟩
  · next hmem => simp [hmem]

omit [DecidableEq ι] in
/-- A tally table that is changed by a table of differences counts what the differences lead to. -/
theorem Tallied.addAll {tallies : Entries κ Int} {n m : κ → ℕ} {f : ι → κ} (hf : Function.Injective f)
    {rows : List (ι × Int)} (hrows : (rows.map Prod.fst).Nodup) (h : Tallied tallies n)
    (hin : ∀ i d, (i, d) ∈ rows → (m (f i) : Int) = n (f i) + d)
    (hout : ∀ k, (∀ i d, (i, d) ∈ rows → f i ≠ k) → m k = n k) :
    Tallied (rows.foldl (fun tallies row => RowGroups.add tallies (f row.1) row.2) tallies) m := by
  induction rows generalizing tallies n with
  | nil =>
    have hsame : m = n := funext fun k => hout k fun _ _ hmem => nomatch hmem
    rw [hsame]
    exact h
  | cons row rest ih =>
    obtain ⟨i, d⟩ := row
    obtain ⟨hfresh, hrest⟩ := List.nodup_cons.mp hrows
    have hne : ∀ j e, (j, e) ∈ rest → f j ≠ f i := by
      intro j e hmem heq
      exact hfresh (List.mem_map.mpr ⟨(j, e), hmem, hf heq⟩)
    have hfirst : Tallied (RowGroups.add tallies (f i) d) (Function.update n (f i) (m (f i))) := by
      refine h.add ?_ fun k hk => Function.update_of_ne hk _ _
      rw [Function.update_self]
      exact hin i d List.mem_cons_self
    refine ih hrest hfirst ?_ ?_
    · intro j e hmem
      rw [Function.update_of_ne (hne j e hmem)]
      exact hin j e (List.mem_cons_of_mem _ hmem)
    · intro k hk
      by_cases hki : k = f i
      · rw [hki, Function.update_self]
      · rw [Function.update_of_ne hki]
        refine hout k fun j e hmem => ?_
        rcases List.mem_cons.mp hmem with heq | hmem
        · obtain ⟨rfl, rfl⟩ := Prod.mk.inj heq
          exact fun hsame => hki hsame.symm
        · exact hk j e hmem

end Tallies

end Delegatus.RowGroups
