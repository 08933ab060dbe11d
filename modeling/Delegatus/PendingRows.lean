import Delegatus.Table

/-!
# The pending rows of a write

A write that has not committed: the rows it put and the keys it removed are held beside the committed
rows, and a reader inside the write sees both.  `commit` upserts the rows and deletes the keys.
-/

namespace Delegatus

variable {α κ : Type*} [DecidableEq κ] {key : α → κ}

/-- The rows put and the keys removed so far; no row that is put has a removed key. -/
structure PendingRows (key : α → κ) where
  puts : Table key
  removed : List κ
  apart : ∀ row ∈ puts.rows, key row ∉ removed

namespace PendingRows

def none : PendingRows key := ⟨Table.empty, [], fun _ _ => List.not_mem_nil⟩

def put (pending : PendingRows key) (row : α) : PendingRows key where
  puts := pending.puts.set row
  removed := pending.removed.filter (· ≠ key row)
  apart := by
    intro other hother hremoved
    obtain ⟨hremoved, hne⟩ := List.mem_filter.mp hremoved
    rcases Table.mem_set.mp hother with rfl | ⟨hother, -⟩
    · exact of_decide_eq_true hne rfl
    · exact pending.apart other hother hremoved

def remove (pending : PendingRows key) (k : κ) : PendingRows key where
  puts := pending.puts.delete k
  removed := pending.removed.filter (· ≠ k) ++ [k]
  apart := by
    intro row hrow hremoved
    obtain ⟨hrow, hne⟩ := Table.mem_delete.mp hrow
    rcases List.mem_append.mp hremoved with hremoved | hremoved
    · exact pending.apart row hrow (List.mem_filter.mp hremoved).1
    · exact hne (List.mem_singleton.mp hremoved)

/-- What a reader inside the write sees. -/
def read (pending : PendingRows key) (committed : Table key) (k : κ) : Option α :=
  match pending.puts.get? k with
  | some row => some row
  | .none => if k ∈ pending.removed then .none else committed.get? k

def commit (pending : PendingRows key) (committed : Table key) : Table key :=
  pending.removed.foldl Table.delete (pending.puts.rows.foldl Table.set committed)

/-! ### Reading -/

@[simp] theorem read_none (committed : Table key) (k : κ) :
    (none : PendingRows key).read committed k = committed.get? k := rfl

theorem read_put (pending : PendingRows key) (row : α) (committed : Table key) (k : κ) :
    (pending.put row).read committed k =
      if k = key row then some row else pending.read committed k := by
  unfold read put
  dsimp only
  rw [Table.get?_set]
  by_cases hk : k = key row
  · rw [if_pos hk, if_pos hk]
  · rw [if_neg hk, if_neg hk]
    simp [hk]

theorem read_remove (pending : PendingRows key) (k : κ) (committed : Table key) (other : κ) :
    (pending.remove k).read committed other =
      if other = k then .none else pending.read committed other := by
  unfold read remove
  dsimp only
  rw [Table.get?_delete]
  by_cases hk : other = k
  · simp [hk]
  · simp [hk]

/-! ### Committing -/

theorem get?_foldl_delete (keys : List κ) (table : Table key) (k : κ) :
    (keys.foldl Table.delete table).get? k = if k ∈ keys then .none else table.get? k := by
  induction keys generalizing table with
  | nil => rfl
  | cons first rest ih =>
    rw [List.foldl_cons, ih, Table.get?_delete]
    by_cases hrest : k ∈ rest
    · simp [hrest]
    · by_cases hfirst : k = first
      · simp [hfirst]
      · simp [hrest, hfirst]

end PendingRows

end Delegatus
