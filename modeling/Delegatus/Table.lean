import Mathlib

/-!
# Insertion-ordered tables of keyed rows

A JavaScript `Map` from a row's own key to the row: iteration follows insertion order,
`set` replaces a present row in place and appends an absent one, `delete` removes it.
`Table key` is the list of rows together with the proof that no key occurs twice, so a
table with two rows of one key cannot be built.

`ofList` is `new Map(rows.map((row) => [key(row), row]))`, and `rows` is what `values()`
iterates.  Membership of the rows after each operation is stated once (`mem_set`,
`mem_delete`, `mem_modify`, `mem_mapRows`).
-/

namespace Delegatus

variable {κ α : Type*}

/-- Rows in insertion order, no key twice. -/
structure Table (key : α → κ) where
  /-- The rows, oldest first. -/
  rows : List α
  nodup : (rows.map key).Nodup

namespace Table

variable {key : α → κ}

theorem ext_rows {t u : Table key} (h : t.rows = u.rows) : t = u := by
  cases t
  cases u
  simp only at h
  subst h
  rfl

instance [DecidableEq α] : DecidableEq (Table key) := fun t u =>
  decidable_of_iff (t.rows = u.rows) ⟨ext_rows, fun h => h ▸ rfl⟩

/-- Two rows of a table with one key are one row. -/
theorem eq_of_key_eq (t : Table key) {a b : α} (ha : a ∈ t.rows) (hb : b ∈ t.rows)
    (h : key a = key b) : a = b :=
  List.inj_on_of_nodup_map t.nodup ha hb h

theorem rows_nodup (t : Table key) : t.rows.Nodup := List.Nodup.of_map key t.nodup

/-- The empty table. -/
def empty : Table key := ⟨[], List.nodup_nil⟩

@[simp] theorem empty_rows : (empty : Table key).rows = [] := rfl

/-- Rewrites every row in place; the rewriting keeps the keys. -/
def mapRows (t : Table key) (f : α → α) (hf : ∀ row, key (f row) = key row) : Table key :=
  ⟨t.rows.map f, by
    rw [List.map_map]
    have hkeys : key ∘ f = key := funext hf
    rw [hkeys]
    exact t.nodup⟩

@[simp] theorem rows_mapRows (t : Table key) (f : α → α) (hf : ∀ row, key (f row) = key row) :
    (t.mapRows f hf).rows = t.rows.map f := rfl

variable [DecidableEq κ]

/-! ### Reading -/

/-- `map.get(k)`. -/
def get? (t : Table key) (k : κ) : Option α :=
  t.rows.find? (fun row => key row = k)

/-- `map.has(k)`. -/
def has (t : Table key) (k : κ) : Bool :=
  t.rows.any (fun row => key row = k)

theorem get?_eq_some {t : Table key} {k : κ} {row : α} :
    t.get? k = some row ↔ row ∈ t.rows ∧ key row = k := by
  constructor
  · intro h
    have hkey := List.find?_some h
    exact ⟨List.mem_of_find?_eq_some h, by simpa using hkey⟩
  · rintro ⟨hmem, rfl⟩
    have hsome : (t.rows.find? (fun other => key other = key row)).isSome := by
      rw [List.find?_isSome]
      exact ⟨row, hmem, by simp⟩
    obtain ⟨found, hfound⟩ := Option.isSome_iff_exists.mp hsome
    have hkey : key found = key row := by simpa using List.find?_some hfound
    have heq := t.eq_of_key_eq (List.mem_of_find?_eq_some hfound) hmem hkey
    rw [get?, hfound, heq]

theorem get?_eq_none {t : Table key} {k : κ} :
    t.get? k = none ↔ ∀ row ∈ t.rows, key row ≠ k := by
  rw [get?, List.find?_eq_none]
  simp

theorem has_eq_true {t : Table key} {k : κ} :
    t.has k = true ↔ ∃ row ∈ t.rows, key row = k := by
  simp [has]

theorem has_eq_false {t : Table key} {k : κ} :
    t.has k = false ↔ ∀ row ∈ t.rows, key row ≠ k := by
  simp [has]

/-! ### Writing -/

/-- Overwrites the row that has `row`'s key and leaves the others. -/
def replaceRow (rows : List α) (key : α → κ) (row : α) : List α :=
  rows.map (fun old => if key old = key row then row else old)

theorem replaceRow_keys (rows : List α) (row : α) :
    (replaceRow rows key row).map key = rows.map key := by
  rw [replaceRow, List.map_map]
  apply List.map_congr_left
  intro old _
  by_cases h : key old = key row
  · simp [h]
  · simp [h]

/-- `map.set(key(row), row)`. -/
def set (t : Table key) (row : α) : Table key :=
  if h : t.has (key row) then
    ⟨replaceRow t.rows key row, by rw [replaceRow_keys]; exact t.nodup⟩
  else
    ⟨t.rows ++ [row], by
      have hfresh := has_eq_false.mp (Bool.not_eq_true _ ▸ h)
      rw [List.map_append, List.nodup_append]
      refine ⟨t.nodup, by simp, ?_⟩
      intro k hk k' hk'
      obtain ⟨old, hold, rfl⟩ := List.mem_map.mp hk
      have hnew : k' = key row := by simpa using hk'
      exact hnew ▸ hfresh old hold⟩

/-- `map.delete(k)`. -/
def delete (t : Table key) (k : κ) : Table key :=
  ⟨t.rows.filter (fun row => key row ≠ k),
    t.nodup.sublist ((List.filter_sublist).map key)⟩

/-- Rewrites the row of key `k` in place, if there is one. -/
def modify (t : Table key) (k : κ) (f : α → α) (hf : ∀ row, key (f row) = key row) :
    Table key :=
  t.mapRows (fun row => if key row = k then f row else row) (by
    intro row
    by_cases h : key row = k
    · simp [h, hf]
    · simp [h])

/-- The rows that satisfy the predicate: `DELETE … WHERE NOT …`. -/
def filter (t : Table key) (p : α → Bool) : Table key :=
  ⟨t.rows.filter p, t.nodup.sublist (List.filter_sublist.map key)⟩

/-- `INSERT OR IGNORE`: a held key keeps its row. -/
def insertOrIgnore (t : Table key) (row : α) : Table key :=
  if t.has (key row) then t else t.set row

/-- `new Map(rows.map((row) => [key(row), row]))`: a later row replaces an earlier one. -/
def ofList (rows : List α) : Table key :=
  rows.foldl set empty

theorem rows_set_of_fresh {t : Table key} {row : α} (h : ∀ old ∈ t.rows, key old ≠ key row) :
    (t.set row).rows = t.rows ++ [row] := by
  have hhas : ¬ t.has (key row) = true := by
    rw [has_eq_false.mpr h]
    simp
  rw [set, dif_neg hhas]

theorem rows_set_of_present {t : Table key} {row old : α} (hold : old ∈ t.rows)
    (h : key old = key row) : (t.set row).rows = replaceRow t.rows key row := by
  have hhas : t.has (key row) = true := has_eq_true.mpr ⟨old, hold, h⟩
  rw [set, dif_pos hhas]

@[simp] theorem rows_delete (t : Table key) (k : κ) :
    (t.delete k).rows = t.rows.filter (fun row => key row ≠ k) := rfl

/-- Deleting a key that is not held changes nothing. -/
theorem delete_of_absent {t : Table key} {k : κ} (h : t.has k = false) : t.delete k = t := by
  apply ext_rows
  rw [rows_delete, List.filter_eq_self]
  intro row hrow
  simpa using has_eq_false.mp h row hrow

@[simp] theorem rows_modify (t : Table key) (k : κ) (f : α → α)
    (hf : ∀ row, key (f row) = key row) :
    (t.modify k f hf).rows = t.rows.map (fun row => if key row = k then f row else row) := rfl

/-- The rows after `set`: the new row, and every old row of another key. -/
theorem mem_set {t : Table key} {row other : α} :
    other ∈ (t.set row).rows ↔ other = row ∨ (other ∈ t.rows ∧ key other ≠ key row) := by
  by_cases hhas : ∃ old ∈ t.rows, key old = key row
  · obtain ⟨old, hold, hkey⟩ := hhas
    rw [rows_set_of_present hold hkey, replaceRow, List.mem_map]
    constructor
    · rintro ⟨from', hfrom, rfl⟩
      by_cases h : key from' = key row
      · simp [h]
      · simp [h, hfrom]
    · rintro (rfl | ⟨hmem, hne⟩)
      · exact ⟨old, hold, by simp [hkey]⟩
      · exact ⟨other, hmem, by simp [hne]⟩
  · have hfresh : ∀ old ∈ t.rows, key old ≠ key row := by
      intro old hold h
      exact hhas ⟨old, hold, h⟩
    rw [rows_set_of_fresh hfresh, List.mem_append, List.mem_singleton]
    constructor
    · rintro (hmem | rfl)
      · exact Or.inr ⟨hmem, hfresh other hmem⟩
      · exact Or.inl rfl
    · rintro (rfl | ⟨hmem, -⟩)
      · exact Or.inr rfl
      · exact Or.inl hmem

omit [DecidableEq κ] in
@[simp] theorem mem_filter {t : Table key} {p : α → Bool} {row : α} :
    row ∈ (t.filter p).rows ↔ row ∈ t.rows ∧ p row = true :=
  List.mem_filter

theorem mem_insertOrIgnore {t : Table key} {row other : α} :
    other ∈ (t.insertOrIgnore row).rows ↔
      other ∈ t.rows ∨ (other = row ∧ t.has (key row) = false) := by
  unfold insertOrIgnore
  split_ifs with hhas
  · simp [hhas]
  · have hfree : t.has (key row) = false := Bool.not_eq_true _ ▸ hhas
    rw [mem_set]
    constructor
    · rintro (rfl | ⟨hold, -⟩)
      · exact Or.inr ⟨rfl, hfree⟩
      · exact Or.inl hold
    · rintro (hold | ⟨rfl, -⟩)
      · exact Or.inr ⟨hold, has_eq_false.mp hfree other hold⟩
      · exact Or.inl rfl

/-- Where one key has one row, nothing is ignored. -/
theorem mem_foldl_insertOrIgnore {t : Table key} {rows : List α} {other : α}
    (hone : ∀ a b, (a ∈ t.rows ∨ a ∈ rows) → (b ∈ t.rows ∨ b ∈ rows) → key a = key b → a = b) :
    other ∈ (rows.foldl insertOrIgnore t).rows ↔ other ∈ t.rows ∨ other ∈ rows := by
  induction rows generalizing t with
  | nil => simp
  | cons row rest ih =>
    have hstep : ∀ a, a ∈ (t.insertOrIgnore row).rows ↔ a ∈ t.rows ∨ a = row := by
      intro a
      rw [mem_insertOrIgnore]
      constructor
      · exact Or.imp_right And.left
      · rintro (hold | rfl)
        · exact Or.inl hold
        · cases hhas : t.has (key a) with
          | false => exact Or.inr ⟨rfl, rfl⟩
          | true =>
            obtain ⟨held, hheld, hkey⟩ := has_eq_true.mp hhas
            have hsame := hone held a (Or.inl hheld) (Or.inr List.mem_cons_self) hkey
            exact Or.inl (hsame ▸ hheld)
    have hmem : ∀ a, (a ∈ (t.insertOrIgnore row).rows ∨ a ∈ rest) ↔
        a ∈ t.rows ∨ a ∈ row :: rest := by
      intro a
      rw [hstep, List.mem_cons, or_assoc]
    rw [List.foldl_cons, ih, hmem]
    intro a b ha hb
    exact hone a b ((hmem a).mp ha) ((hmem b).mp hb)

theorem mem_delete {t : Table key} {k : κ} {row : α} :
    row ∈ (t.delete k).rows ↔ row ∈ t.rows ∧ key row ≠ k := by
  simp

/-- The row read after `set` is the new one at its key and the old one elsewhere. -/
theorem get?_set (t : Table key) (row : α) (k : κ) :
    (t.set row).get? k = if k = key row then some row else t.get? k := by
  by_cases h : k = key row
  · rw [if_pos h, get?_eq_some]
    exact ⟨mem_set.mpr (Or.inl rfl), h.symm⟩
  · rw [if_neg h]
    cases hget : t.get? k with
    | some old =>
      obtain ⟨hold, hkey⟩ := get?_eq_some.mp hget
      rw [get?_eq_some]
      exact ⟨mem_set.mpr (Or.inr ⟨hold, hkey ▸ h⟩), hkey⟩
    | none =>
      rw [get?_eq_none] at hget ⊢
      intro other hother
      rcases mem_set.mp hother with rfl | ⟨hmem, -⟩
      · exact fun heq => h heq.symm
      · exact hget other hmem

theorem get?_delete (t : Table key) (k k' : κ) :
    (t.delete k).get? k' = if k' = k then none else t.get? k' := by
  by_cases h : k' = k
  · rw [if_pos h, get?_eq_none]
    intro row hrow
    rw [h]
    exact (mem_delete.mp hrow).2
  · rw [if_neg h]
    cases hget : t.get? k' with
    | some row =>
      obtain ⟨hrow, hkey⟩ := get?_eq_some.mp hget
      exact get?_eq_some.mpr ⟨mem_delete.mpr ⟨hrow, hkey ▸ h⟩, hkey⟩
    | none =>
      rw [get?_eq_none] at hget ⊢
      intro row hrow
      exact hget row (mem_delete.mp hrow).1

/-- A key is held after `set` if it is the new row's, or was held. -/
theorem has_set (t : Table key) (row : α) (k : κ) :
    (t.set row).has k = true ↔ k = key row ∨ t.has k = true := by
  rw [has_eq_true, has_eq_true]
  constructor
  · rintro ⟨other, hmem, rfl⟩
    rcases mem_set.mp hmem with rfl | ⟨hold, -⟩
    · exact Or.inl rfl
    · exact Or.inr ⟨other, hold, rfl⟩
  · rintro (rfl | ⟨other, hmem, rfl⟩)
    · exact ⟨row, mem_set.mpr (Or.inl rfl), rfl⟩
    · by_cases h : key other = key row
      · exact ⟨row, mem_set.mpr (Or.inl rfl), h.symm⟩
      · exact ⟨other, mem_set.mpr (Or.inr ⟨hmem, h⟩), rfl⟩

theorem has_delete (t : Table key) (k k' : κ) :
    (t.delete k).has k' = true ↔ k' ≠ k ∧ t.has k' = true := by
  rw [has_eq_true, has_eq_true]
  constructor
  · rintro ⟨row, hmem, rfl⟩
    obtain ⟨hold, hne⟩ := mem_delete.mp hmem
    exact ⟨hne, row, hold, rfl⟩
  · rintro ⟨hne, row, hmem, rfl⟩
    exact ⟨row, mem_delete.mpr ⟨hmem, hne⟩, rfl⟩

theorem get?_isSome (t : Table key) (k : κ) : (t.get? k).isSome = true ↔ t.has k = true := by
  rw [get?, List.find?_isSome, has, List.any_eq_true]

/-- A sum over the rows grows by a new row, where a row of its key counts as much as it does. -/
theorem sum_set (t : Table key) (row : α) (size : α → Nat)
    (h : ∀ old ∈ t.rows, key old = key row → size old = size row) :
    ((t.set row).rows.map size).sum =
      (t.rows.map size).sum + if t.has (key row) then 0 else size row := by
  by_cases hhas : t.has (key row) = true
  · obtain ⟨old, hold, hkey⟩ := has_eq_true.mp hhas
    have hsame : (replaceRow t.rows key row).map size = t.rows.map size := by
      unfold replaceRow
      rw [List.map_map]
      apply List.map_congr_left
      intro other hother
      by_cases hother' : key other = key row
      · simp [hother', h other hother hother']
      · simp [hother']
    rw [rows_set_of_present hold hkey, hsame, if_pos hhas, Nat.add_zero]
  · have hfresh := has_eq_false.mp (Bool.not_eq_true _ ▸ hhas)
    rw [rows_set_of_fresh hfresh, if_neg hhas, List.map_append, List.sum_append]
    simp

/-- Tables whose rows correspond one to one, in order and under the same keys, read
corresponding rows at every key. -/
theorem get?_rel {β : Type*} {key' : β → κ} {R : α → β → Prop}
    (hkey : ∀ a b, R a b → key' b = key a) {t : Table key} {u : Table key'}
    (h : List.Forall₂ R t.rows u.rows) (k : κ) : Option.Rel R (t.get? k) (u.get? k) := by
  unfold get?
  generalize t.rows = rows, u.rows = rows' at h
  induction h with
  | nil => exact .none
  | @cons a b rest rest' hab _ ih =>
    by_cases hk : key a = k
    · rw [List.find?_cons_of_pos (by simpa using hk),
        List.find?_cons_of_pos (by simpa [hkey a b hab] using hk)]
      exact .some hab
    · rw [List.find?_cons_of_neg (by simpa using hk),
        List.find?_cons_of_neg (by simpa [hkey a b hab] using hk)]
      exact ih

/-- A row rewritten in place is read at the key it was read at. -/
theorem get?_mapRows (t : Table key) (f : α → α) (hf : ∀ row, key (f row) = key row) (k : κ) :
    (t.mapRows f hf).get? k = (t.get? k).map f := by
  cases hget : t.get? k with
  | some row =>
    obtain ⟨hmem, hkey⟩ := get?_eq_some.mp hget
    rw [Option.map_some, get?_eq_some, rows_mapRows]
    exact ⟨List.mem_map_of_mem hmem, (hf row).trans hkey⟩
  | none =>
    rw [get?_eq_none] at hget
    rw [Option.map_none, get?_eq_none]
    intro row hrow
    obtain ⟨old, hold, rfl⟩ := List.mem_map.mp hrow
    rw [hf old]
    exact hget old hold

/-! ### Building from a list -/

theorem rows_foldl_set (t : Table key) (rows : List α)
    (h : ((t.rows ++ rows).map key).Nodup) : (rows.foldl set t).rows = t.rows ++ rows := by
  induction rows generalizing t with
  | nil => simp
  | cons row rest ih =>
    have hfresh : ∀ old ∈ t.rows, key old ≠ key row := by
      intro old hold
      rw [List.map_append, List.nodup_append] at h
      exact h.2.2 _ (List.mem_map_of_mem hold) _ (by simp)
    have hset := rows_set_of_fresh hfresh
    rw [List.foldl_cons, ih (t.set row) (by simpa [hset] using h), hset]
    simp

/-- A list without a repeated key is the rows of its table, in its order. -/
theorem rows_ofList {rows : List α} (h : (rows.map key).Nodup) :
    (ofList rows : Table key).rows = rows := by
  rw [ofList, rows_foldl_set _ _ (by simpa using h)]
  simp

theorem ofList_rows (t : Table key) : ofList t.rows = t :=
  ext_rows (rows_ofList t.nodup)

end Table

end Delegatus
