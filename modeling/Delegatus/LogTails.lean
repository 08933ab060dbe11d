import Mathlib.Data.List.DropRight

/-!
# Logs of which only the end is kept

A log grows at its end, and its keeper holds a bounded part: the last `m` entries whole, and of the
`n` entries before these only their keys.  The keeper sees its own part and the new entries, never
the log.  `recent_append` and `older_append` say that what it computes from these is the part of the
longer log, and `older_append_recent` that together the two tiers name exactly the last `m + n`
entries.

Nothing here names a particular log.
-/

namespace Delegatus.LogTails

variable {α κ : Type*} (m n : Nat) (key : α → κ)

/-- The entries that are kept whole. -/
def recent (log : List α) : List α := log.rtake m

/-- The keys that are kept of the entries before them. -/
def older (log : List α) : List κ := ((log.rdrop m).map key).rtake n

/-! ### The last entries of a list -/

theorem rdrop_append_rtake (l : List α) : l.rdrop m ++ l.rtake m = l := by
  rw [List.rdrop, List.rtake, List.take_append_drop]

theorem length_rtake (l : List α) : (l.rtake m).length = min m l.length := by
  rw [List.rtake, List.length_drop]
  omega

theorem rtake_of_length_le {l : List α} (h : l.length ≤ m) : l.rtake m = l := by
  have hzero : l.length - m = 0 := by omega
  rw [List.rtake, hzero, List.drop_zero]

theorem rdrop_of_length_le {l : List α} (h : l.length ≤ m) : l.rdrop m = [] := by
  have hzero : l.length - m = 0 := by omega
  rw [List.rdrop, hzero, List.take_zero]

theorem map_rtake (f : α → κ) (l : List α) : (l.rtake m).map f = (l.map f).rtake m := by
  rw [List.rtake, List.rtake, List.map_drop, List.length_map]

theorem rtake_suffix (l : List α) : l.rtake m <:+ l := List.drop_suffix _ _

theorem rtake_append_of_le {front back : List α} (h : m ≤ back.length) :
    (front ++ back).rtake m = back.rtake m := by
  rw [List.rtake, List.rtake, List.length_append, List.drop_append]
  have hpast : front.length ≤ front.length + back.length - m := by omega
  rw [List.drop_eq_nil_of_le hpast, List.nil_append]
  congr 1
  omega

/-- The last entries of the longer log are the last of those that were kept and the new ones. -/
theorem rtake_append (l new : List α) : (l ++ new).rtake m = (l.rtake m ++ new).rtake m := by
  by_cases hlength : l.length ≤ m
  · rw [rtake_of_length_le m hlength]
  · have hkept : m ≤ (l.rtake m ++ new).length := by
      rw [List.length_append, length_rtake]
      omega
    have hwhole := @rtake_append_of_le _ m (l.rdrop m) _ hkept
    rw [← List.append_assoc, rdrop_append_rtake] at hwhole
    exact hwhole

/-- What the longer log has before its last entries: what was before, and what now leaves them. -/
theorem rdrop_append (l new : List α) :
    (l ++ new).rdrop m = l.rdrop m ++ (l.rtake m ++ new).rdrop m := by
  have hlong := rdrop_append_rtake m (l ++ new)
  have hkept := rdrop_append_rtake m (l.rtake m ++ new)
  have hshort := rdrop_append_rtake m l
  rw [← List.append_left_inj ((l ++ new).rtake m)]
  rw [hlong, List.append_assoc, rtake_append m l new, hkept, ← List.append_assoc, hshort]

theorem rtake_append_rtake (l : List α) : (l.rdrop m).rtake n ++ l.rtake m = l.rtake (m + n) := by
  by_cases hlength : l.length ≤ m
  · rw [rdrop_of_length_le m hlength, List.rtake_nil, rtake_of_length_le m hlength,
      rtake_of_length_le _ (by omega), List.nil_append]
  · rw [List.rtake, List.rdrop, List.length_take, List.rtake, List.rtake]
    have hmin : min (l.length - m) l.length - n = l.length - (m + n) := by omega
    rw [hmin]
    have hrest : (l.drop (l.length - (m + n))).drop (l.length - m - (l.length - (m + n)))
        = l.drop (l.length - m) := by
      rw [List.drop_drop]
      congr 1
      omega
    rw [List.drop_take, ← hrest, List.take_append_drop]

/-! ### The two tiers -/

theorem recent_append (log new : List α) :
    recent m (log ++ new) = (recent m log ++ new).rtake m := rtake_append m log new

/-- The keys of the longer log's older tier, from the keys that were kept and those that leave the
first tier. -/
theorem older_append (log new : List α) :
    older m n key (log ++ new)
      = (older m n key log ++ ((recent m log ++ new).rdrop m).map key).rtake n := by
  rw [older, rdrop_append, List.map_append, rtake_append]
  rfl

/-- Together the two tiers name the last `m + n` entries. -/
theorem older_append_recent (log : List α) :
    older m n key log ++ (recent m log).map key = (log.map key).rtake (m + n) := by
  have hrdrop : (log.rdrop m).map key = (log.map key).rdrop m := by
    rw [List.rdrop, List.rdrop, List.map_take, List.length_map]
  rw [older, recent, map_rtake, hrdrop, rtake_append_rtake]

end Delegatus.LogTails
