import Mathlib.Data.List.Nodup
import Mathlib.Data.List.Count

/-!
# At most one holder of a claim

Rows have ids, and a row may hold a claim.  `OneHolder id claim rows` says that two rows with one claim have
one id.  A change of the rows keeps it when every claim was held before by the row of the same id
(`OneHolder.of_held`), or when one row comes that claims nothing which another row holds
(`OneHolder.replace`).
-/

namespace Delegatus.SingleHolders

variable {α ι κ : Type*} {id : α → ι} {claim : α → Option κ} {rows rows' : List α}

/-- Two rows that hold one claim are the row of one id. -/
def OneHolder (id : α → ι) (claim : α → Option κ) (rows : List α) : Prop :=
  ∀ a ∈ rows, ∀ b ∈ rows, ∀ key, claim a = some key → claim b = some key → id a = id b

/-- Each claim of the new rows was held by the row of the same id. -/
theorem OneHolder.of_held (h : OneHolder id claim rows)
    (hheld : ∀ a ∈ rows', claim a = none ∨ ∃ b ∈ rows, id b = id a ∧ claim b = claim a) :
    OneHolder id claim rows' := by
  intro a ha b hb key hakey hbkey
  rcases hheld a ha with hnone | ⟨a', ha', haid, haclaim⟩
  · rw [hnone] at hakey
    exact nomatch hakey
  · rcases hheld b hb with hnone | ⟨b', hb', hbid, hbclaim⟩
    · rw [hnone] at hbkey
      exact nomatch hbkey
    · rw [← haid, ← hbid]
      exact h a' ha' b' hb' key (haclaim.trans hakey) (hbclaim.trans hbkey)

/-- One row comes, with a claim that no row of another id holds. -/
theorem OneHolder.replace (h : OneHolder id claim rows) {row : α}
    (hmem : ∀ a ∈ rows', a ∈ rows ∨ a = row)
    (hfree : ∀ a ∈ rows, id a ≠ id row → ∀ key, claim row = some key → claim a ≠ some key) :
    OneHolder id claim rows' := by
  intro a ha b hb key hakey hbkey
  rcases hmem a ha with haold | rfl
  · rcases hmem b hb with hbold | rfl
    · exact h a haold b hbold key hakey hbkey
    · by_contra hne
      exact hfree a haold hne key hbkey hakey
  · rcases hmem b hb with hbold | rfl
    · by_contra hne
      exact hfree b hbold (fun heq => hne heq.symm) key hakey hbkey
    · rfl

/-- With distinct ids at most one row holds a claim. -/
theorem OneHolder.countP_le_one [DecidableEq κ] (h : OneHolder id claim rows)
    (hnodup : (rows.map id).Nodup) (key : κ) : rows.countP (fun row => claim row = some key) ≤ 1 := by
  induction rows with
  | nil => exact Nat.zero_le _
  | cons row rest ih =>
    rw [List.map_cons, List.nodup_cons] at hnodup
    have hrest : OneHolder id claim rest :=
      fun a ha b hb => h a (List.mem_cons_of_mem _ ha) b (List.mem_cons_of_mem _ hb)
    rw [List.countP_cons]
    by_cases hrow : claim row = some key
    · rw [if_pos (decide_eq_true hrow)]
      have hnone : rest.countP (fun row => claim row = some key) = 0 := by
        rw [List.countP_eq_zero]
        intro other hother hclaim
        apply hnodup.1
        rw [h row List.mem_cons_self other (List.mem_cons_of_mem _ hother) key hrow (of_decide_eq_true hclaim)]
        exact List.mem_map_of_mem hother
      exact Nat.le_of_eq (congrArg (· + 1) hnone)
    · rw [if_neg (by simpa using hrow)]
      exact ih hrest hnodup.2

/-- Where each claim is held at most once, holders of one claim have one id. -/
theorem oneHolder_of_countP [DecidableEq κ]
    (h : ∀ key, rows.countP (fun row => claim row = some key) ≤ 1) : OneHolder id claim rows := by
  intro a ha b hb key hakey hbkey
  have hle := h key
  rw [List.countP_eq_length_filter] at hle
  have hamem : a ∈ rows.filter (fun row => claim row = some key) :=
    List.mem_filter.mpr ⟨ha, decide_eq_true hakey⟩
  have hbmem : b ∈ rows.filter (fun row => claim row = some key) :=
    List.mem_filter.mpr ⟨hb, decide_eq_true hbkey⟩
  obtain ⟨only, honly⟩ := List.length_eq_one_iff.mp (Nat.le_antisymm hle (List.length_pos_of_mem hamem))
  rw [honly, List.mem_singleton] at hamem hbmem
  rw [hamem, hbmem]

end Delegatus.SingleHolders
