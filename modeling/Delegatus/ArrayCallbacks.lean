import Mathlib.Data.List.Nodup
import Mathlib.Data.List.Basic

/-!
# Array methods whose callback reads a clock

`array.filter`, `array.map` and `array.find` with a callback that reads the clock at every
element: the readings are a sequence `now : Nat → τ`, one for each element in order.
`updateAt` writes to the element that `array.find` returned.

Nothing here names a particular component.
-/

namespace Delegatus.ArrayCallbacks

variable {τ α κ : Type*}

/-- The readings after the first. -/
def later (now : Nat → τ) (n : Nat) : Nat → τ := fun m => now (n + m)

def filterAt (keep : τ → α → Bool) (now : Nat → τ) : List α → List α
  | [] => []
  | a :: rest =>
    if keep (now 0) a then a :: filterAt keep (later now 1) rest
    else filterAt keep (later now 1) rest

def mapAt (f : τ → α → α) (now : Nat → τ) : List α → List α
  | [] => []
  | a :: rest => f (now 0) a :: mapAt f (later now 1) rest

def findAt (wanted : τ → α → Bool) (now : Nat → τ) : List α → Option α
  | [] => none
  | a :: rest => if wanted (now 0) a then some a else findAt wanted (later now 1) rest

/-- Rewrites the element that `findAt` finds. -/
def updateAt (wanted : τ → α → Bool) (f : α → α) (now : Nat → τ) : List α → List α
  | [] => []
  | a :: rest =>
    if wanted (now 0) a then f a :: rest else a :: updateAt wanted f (later now 1) rest

theorem filterAt_sublist (keep : τ → α → Bool) (now : Nat → τ) (rows : List α) :
    (filterAt keep now rows).Sublist rows := by
  induction rows generalizing now with
  | nil => exact List.Sublist.refl []
  | cons a rest ih =>
    unfold filterAt
    split
    · exact (ih (later now 1)).cons_cons a
    · exact (ih (later now 1)).cons a

/-- What every reading of the pass keeps is not filtered out. -/
theorem filter_filterAt {keep : τ → α → Bool} {P : α → Bool} (now : Nat → τ) {rows : List α}
    (h : ∀ a ∈ rows, P a = true → ∀ n < rows.length, keep (now n) a = true) :
    (filterAt keep now rows).filter P = rows.filter P := by
  induction rows generalizing now with
  | nil => rfl
  | cons a rest ih =>
    have htail := ih (later now 1)
      (fun b hb hP n hn => h b (List.mem_cons_of_mem a hb) hP (1 + n) (by
        rw [List.length_cons]
        omega))
    unfold filterAt
    by_cases hP : P a = true
    · rw [if_pos (h a List.mem_cons_self hP 0 (by simp)), List.filter_cons_of_pos hP,
        List.filter_cons_of_pos hP, htail]
    · rw [List.filter_cons_of_neg hP]
      split
      · rw [List.filter_cons_of_neg hP, htail]
      · exact htail

theorem mem_mapAt {f : τ → α → α} {now : Nat → τ} {rows : List α} {b : α}
    (h : b ∈ mapAt f now rows) : ∃ a ∈ rows, ∃ n, b = f (now n) a := by
  induction rows generalizing now with
  | nil => cases h
  | cons a rest ih =>
    rcases List.mem_cons.mp h with hb | hb
    · exact ⟨a, List.mem_cons_self, 0, hb⟩
    · obtain ⟨c, hc, n, hn⟩ := ih hb
      exact ⟨c, List.mem_cons_of_mem a hc, 1 + n, hn⟩

/-- A rewriting that keeps the keys. -/
theorem map_mapAt {key : α → κ} {f : τ → α → α} (hf : ∀ t a, key (f t a) = key a)
    (now : Nat → τ) (rows : List α) : (mapAt f now rows).map key = rows.map key := by
  induction rows generalizing now with
  | nil => rfl
  | cons a rest ih =>
    unfold mapAt
    rw [List.map_cons, List.map_cons, hf, ih]

theorem findAt_some {wanted : τ → α → Bool} {now : Nat → τ} {rows : List α} {a : α}
    (h : findAt wanted now rows = some a) : a ∈ rows ∧ ∃ n, wanted (now n) a = true := by
  induction rows generalizing now with
  | nil => cases h
  | cons b rest ih =>
    unfold findAt at h
    split at h
    · rename_i hwanted
      cases h
      exact ⟨List.mem_cons_self, 0, hwanted⟩
    · obtain ⟨ha, n, hn⟩ := ih h
      exact ⟨List.mem_cons_of_mem b ha, 1 + n, hn⟩

/-- Every element afterwards is an old one or the rewritten match. -/
theorem mem_updateAt {wanted : τ → α → Bool} {f : α → α} {now : Nat → τ} {rows : List α} {b : α}
    (h : b ∈ updateAt wanted f now rows) :
    b ∈ rows ∨ ∃ a, findAt wanted now rows = some a ∧ b = f a := by
  induction rows generalizing now with
  | nil => cases h
  | cons a rest ih =>
    unfold updateAt at h
    unfold findAt
    by_cases hwanted : wanted (now 0) a = true
    · rw [if_pos hwanted] at h ⊢
      rcases List.mem_cons.mp h with hb | hb
      · exact Or.inr ⟨a, rfl, hb⟩
      · exact Or.inl (List.mem_cons_of_mem a hb)
    · rw [if_neg hwanted] at h ⊢
      rcases List.mem_cons.mp h with hb | hb
      · exact Or.inl (hb ▸ List.mem_cons_self)
      · exact (ih hb).imp_left (List.mem_cons_of_mem a)

theorem mem_updateAt_of_findAt {wanted : τ → α → Bool} {now : Nat → τ} {rows : List α} {a : α}
    (f : α → α) (h : findAt wanted now rows = some a) : f a ∈ updateAt wanted f now rows := by
  induction rows generalizing now with
  | nil => cases h
  | cons b rest ih =>
    unfold findAt at h
    unfold updateAt
    split at h
    · rename_i hwanted
      cases h
      rw [if_pos hwanted]
      exact List.mem_cons_self
    · rename_i hwanted
      rw [if_neg hwanted]
      exact List.mem_cons_of_mem b (ih h)

theorem map_updateAt {key : α → κ} {f : α → α} (hf : ∀ a, key (f a) = key a)
    (wanted : τ → α → Bool) (now : Nat → τ) (rows : List α) :
    (updateAt wanted f now rows).map key = rows.map key := by
  induction rows generalizing now with
  | nil => rfl
  | cons a rest ih =>
    unfold updateAt
    split
    · rw [List.map_cons, List.map_cons, hf]
    · rw [List.map_cons, List.map_cons, ih]

end Delegatus.ArrayCallbacks
