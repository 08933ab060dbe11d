import Delegatus.Table

/-!
# Records

A JavaScript object used as a map, `Record<string, V>`: the table of its entries, each a key with
its value.  A read is a lookup of an own property.
-/

namespace Delegatus

/-- The entries of a record, in insertion order. -/
abbrev Entries (κ β : Type*) := Table (Prod.fst : κ × β → κ)

namespace Entries

variable {κ β : Type*}

/-- `Object.keys(record)`. -/
def keys (record : Entries κ β) : List κ := record.rows.map Prod.fst

variable [DecidableEq κ]

/-- `record[key]`. -/
def at? (record : Entries κ β) (key : κ) : Option β := (record.get? key).map Prod.snd

variable {record : Entries κ β} {key : κ} {value : β}

theorem at?_eq_some : record.at? key = some value ↔ (key, value) ∈ record.rows := by
  unfold at?
  rw [Option.map_eq_some_iff]
  constructor
  · rintro ⟨⟨key', value'⟩, hrow, rfl⟩
    obtain ⟨hmem, rfl⟩ := Table.get?_eq_some.mp hrow
    exact hmem
  · exact fun hmem => ⟨(key, value), Table.get?_eq_some.mpr ⟨hmem, rfl⟩, rfl⟩

theorem at?_eq_none : record.at? key = none ↔ ∀ value, (key, value) ∉ record.rows := by
  rw [Option.eq_none_iff_forall_ne_some]
  exact forall_congr' fun value => not_congr at?_eq_some

theorem mem_keys : key ∈ record.keys ↔ ∃ value, record.at? key = some value := by
  simp [keys, at?_eq_some]

theorem at?_set (record : Entries κ β) (key key' : κ) (value : β) :
    at? (record.set (key, value)) key' = if key' = key then some value else record.at? key' := by
  unfold at?
  rw [Table.get?_set]
  by_cases h : key' = key
  · rw [if_pos h, if_pos h]
    exact rfl
  · rw [if_neg h, if_neg h]

theorem at?_delete (record : Entries κ β) (key key' : κ) :
    at? (record.delete key) key' = if key' = key then none else record.at? key' := by
  unfold at?
  rw [Table.get?_delete]
  split
  · exact rfl
  · exact rfl

theorem at?_empty : at? (Table.empty : Entries κ β) key = none := rfl

end Entries

end Delegatus
