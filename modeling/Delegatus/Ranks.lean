import Mathlib.Data.List.Nodup
import Mathlib.Data.List.Basic
import Mathlib.Order.Basic
import Mathlib.Order.Lattice
import Mathlib.Data.List.MinMax

/-!
# Places in a queue that is counted

A waiter's place in a list of waiters is how many of them have a key no greater than its own.
Where no two waiters share a key the places are a total order: one waiter has place 1
(`existsUnique_first`), it is the least one (`place_eq_one_iff`), and of two waiters one is
before the other and has the lower place (`place_lt_iff`).

Nothing here names a particular queue.
-/

namespace Delegatus.Ranks

variable {α κ : Type*} [LinearOrder κ] (key : α → κ) (waiters : List α)

/-- The number of waiters with a key up to this one's. -/
def place (a : α) : Nat := waiters.countP (fun b => key b ≤ key a)

variable {key waiters}

theorem place_pos {a : α} (ha : a ∈ waiters) : 0 < place key waiters a :=
  List.countP_pos_iff.mpr ⟨a, ha, by simp⟩

theorem place_mono {a b : α} (h : key a ≤ key b) : place key waiters a ≤ place key waiters b := by
  apply List.countP_mono_left
  intro c _ hc
  simp only [decide_eq_true_eq] at hc ⊢
  exact hc.trans h

/-- A waiter with a greater key has a later place. -/
theorem place_lt {a b : α} (hb : b ∈ waiters) (h : key a < key b) :
    place key waiters a < place key waiters b := by
  unfold place
  rw [List.countP_eq_length_filter, List.countP_eq_length_filter]
  have hsub : (waiters.filter (fun c => key c ≤ key a)).Sublist
      (waiters.filter (fun c => key c ≤ key b)) := by
    apply List.monotone_filter_right
    intro c hc
    simp only [decide_eq_true_eq] at hc ⊢
    exact hc.trans h.le
  refine lt_of_le_of_ne hsub.length_le ?_
  intro hlength
  have hmem : b ∈ waiters.filter (fun c => key c ≤ key b) := by simp [hb]
  rw [← hsub.eq_of_length hlength] at hmem
  simp only [List.mem_filter, decide_eq_true_eq] at hmem
  exact absurd hmem.2 (not_le.mpr h)

theorem place_lt_iff {a b : α} (hb : b ∈ waiters) :
    place key waiters a < place key waiters b ↔ key a < key b := by
  constructor
  · intro h
    by_contra hle
    exact absurd (place_mono (not_lt.mp hle)) (not_le.mpr h)
  · exact place_lt hb

/-- Distinct keys give distinct places. -/
theorem place_inj (hkeys : ∀ a ∈ waiters, ∀ b ∈ waiters, key a = key b → a = b) {a b : α}
    (ha : a ∈ waiters) (hb : b ∈ waiters) (h : place key waiters a = place key waiters b) :
    a = b := by
  apply hkeys a ha b hb
  rcases lt_trichotomy (key a) (key b) with hlt | heq | hgt
  · exact absurd h (place_lt hb hlt).ne
  · exact heq
  · exact absurd h (place_lt ha hgt).ne'

/-- The first waiter is the one nobody is before. -/
theorem place_eq_one_iff (hnodup : waiters.Nodup)
    (hkeys : ∀ a ∈ waiters, ∀ b ∈ waiters, key a = key b → a = b) {a : α} (ha : a ∈ waiters) :
    place key waiters a = 1 ↔ ∀ b ∈ waiters, ¬key b < key a := by
  constructor
  · intro hone b hb hlt
    have hless := place_lt ha hlt
    have hpos : 0 < place key waiters b := place_pos hb
    omega
  · intro hleast
    have hsame : ∀ b ∈ waiters, key b ≤ key a → b = a := fun b hb hle =>
      hkeys b hb a ha (le_antisymm hle (not_lt.mp (hleast b hb)))
    have hpos : 0 < place key waiters a := place_pos ha
    have hle : place key waiters a ≤ 1 := by
      unfold place
      rw [List.countP_eq_length_filter]
      have hsub : ∀ b ∈ waiters.filter (fun b => key b ≤ key a), b = a := by
        intro b hb
        simp only [List.mem_filter, decide_eq_true_eq] at hb
        exact hsame b hb.1 hb.2
      have hrep := List.eq_replicate_of_mem hsub
      have hfilter := hnodup.filter (fun b => decide (key b ≤ key a))
      rw [hrep] at hfilter
      exact List.nodup_replicate.mp hfilter
    omega

theorem existsUnique_first (hnodup : waiters.Nodup)
    (hkeys : ∀ a ∈ waiters, ∀ b ∈ waiters, key a = key b → a = b) (hne : waiters ≠ []) :
    ∃! a, a ∈ waiters ∧ place key waiters a = 1 := by
  obtain ⟨a, ha, hleast⟩ : ∃ a ∈ waiters, ∀ b ∈ waiters, ¬key b < key a := by
    cases hmin : waiters.argmin key with
    | none => exact absurd (List.argmin_eq_none.mp hmin) hne
    | some a =>
      refine ⟨a, List.argmin_mem hmin, ?_⟩
      intro b hb
      exact not_lt.mpr (List.le_of_mem_argmin hb hmin)
  refine ⟨a, ⟨ha, (place_eq_one_iff hnodup hkeys ha).mpr hleast⟩, ?_⟩
  intro b hb
  have hplace := (place_eq_one_iff hnodup hkeys ha).mpr hleast
  exact place_inj hkeys hb.1 ha (hb.2.trans hplace.symm)

end Delegatus.Ranks
