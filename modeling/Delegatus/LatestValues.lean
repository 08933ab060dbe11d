import Mathlib.Data.List.Basic
import Mathlib.Order.Lattice

/-!
# The value of the latest records

Records with a time and a value, the latest of which decide: when they agree, their value stands;
when they do not, the value `mixed` does.  What stands depends on the records alone and not on their order,
and one record at a time can keep it up.
-/

namespace Delegatus.LatestValues

variable {α τ ν : Type*} [LinearOrder τ] (time : α → τ) (value : α → ν) (mixed : ν)

/-- `t` is the latest time of the records. -/
structure Newest (records : List α) (t : τ) : Prop where
  reached : ∃ a ∈ records, time a = t
  bound : ∀ a ∈ records, time a ≤ t

def Agreed (records : List α) (t : τ) (v : ν) : Prop := ∀ a ∈ records, time a = t → value a = v

def Split (records : List α) (t : τ) : Prop :=
  ∃ a ∈ records, ∃ b ∈ records, time a = t ∧ time b = t ∧ value a ≠ value b

/-- The records' latest time is `t`, and `v` is the value that stands. -/
structure Stands (records : List α) (t : τ) (v : ν) : Prop where
  newest : Newest time records t
  value : Agreed time value records t v ∨ v = mixed ∧ Split time value records t

variable {time value mixed} {records records' : List α} {t t' : τ} {v v' : ν} {a : α}

theorem Newest.unique (h : Newest time records t) (h' : Newest time records t') : t = t' := by
  obtain ⟨a, ha, hat⟩ := h.reached
  obtain ⟨b, hb, hbt⟩ := h'.reached
  apply le_antisymm
  · rw [← hat]
    exact h'.bound a ha
  · rw [← hbt]
    exact h.bound b hb

omit [LinearOrder τ] in
theorem not_agreed_of_split (h : Split time value records t) : ¬Agreed time value records t v := by
  intro hagreed
  obtain ⟨a, ha, b, hb, hat, hbt, hne⟩ := h
  exact hne ((hagreed a ha hat).trans (hagreed b hb hbt).symm)

/-- One value stands. -/
theorem Stands.unique (h : Stands time value mixed records t v)
    (h' : Stands time value mixed records t' v') : v = v' := by
  have ht := h.newest.unique h'.newest
  subst ht
  rcases h.value with hagreed | ⟨hv, hsplit⟩
  · rcases h'.value with hagreed' | ⟨-, hsplit'⟩
    · obtain ⟨a, ha, hat⟩ := h.newest.reached
      exact (hagreed a ha hat).symm.trans (hagreed' a ha hat)
    · exact absurd hagreed (not_agreed_of_split hsplit')
  · rcases h'.value with hagreed' | ⟨hv', -⟩
    · exact absurd hagreed' (not_agreed_of_split hsplit)
    · exact hv.trans hv'.symm

/-- What stands depends on which records there are. -/
theorem Stands.of_mem_iff (h : Stands time value mixed records t v)
    (hmem : ∀ a, a ∈ records ↔ a ∈ records') : Stands time value mixed records' t v := by
  obtain ⟨⟨⟨a, ha, hat⟩, hbound⟩, hvalue⟩ := h
  refine ⟨⟨⟨a, (hmem a).mp ha, hat⟩, fun b hb => hbound b ((hmem b).mpr hb)⟩, ?_⟩
  rcases hvalue with hagreed | ⟨hv, b, hb, c, hc, hrest⟩
  · exact Or.inl fun b hb => hagreed b ((hmem b).mpr hb)
  · exact Or.inr ⟨hv, b, (hmem b).mp hb, c, (hmem c).mp hc, hrest⟩

/-- A value other than `mixed` that a latest record has keeps another value from standing alone. -/
theorem Stands.ne_of_mem (h : Stands time value mixed records t v) (ha : a ∈ records)
    (hat : time a = t) (hne : value a ≠ v) : v = mixed := by
  rcases h.value with hagreed | ⟨hv, -⟩
  · exact absurd (hagreed a ha hat) hne
  · exact hv

/-! ### One more record -/

theorem stands_single : Stands time value mixed [a] (time a) (value a) := by
  refine ⟨⟨⟨a, List.mem_cons_self, rfl⟩, ?_⟩, Or.inl ?_⟩
  · intro b hb
    rw [List.mem_singleton.mp hb]
  · intro b hb _
    rw [List.mem_singleton.mp hb]

theorem Stands.later (h : Stands time value mixed records t v) (hlt : t < time a) :
    Stands time value mixed (records ++ [a]) (time a) (value a) := by
  have hold : ∀ b ∈ records, time b < time a := fun b hb => lt_of_le_of_lt (h.newest.bound b hb) hlt
  refine ⟨⟨⟨a, by simp, rfl⟩, ?_⟩, Or.inl ?_⟩
  · intro b hb
    rcases List.mem_append.mp hb with hb | hb
    · exact (hold b hb).le
    · rw [List.mem_singleton.mp hb]
  · intro b hb hbt
    rcases List.mem_append.mp hb with hb | hb
    · exact absurd hbt (hold b hb).ne
    · rw [List.mem_singleton.mp hb]

theorem Newest.concat (h : Newest time records t) (hle : time a ≤ t) :
    Newest time (records ++ [a]) t := by
  obtain ⟨b, hb, hbt⟩ := h.reached
  refine ⟨⟨b, List.mem_append_left _ hb, hbt⟩, ?_⟩
  intro c hc
  rcases List.mem_append.mp hc with hc | hc
  · exact h.bound c hc
  · rw [List.mem_singleton.mp hc]
    exact hle

omit [LinearOrder τ] in
theorem Split.concat (h : Split time value records t) : Split time value (records ++ [a]) t := by
  obtain ⟨b, hb, c, hc, hrest⟩ := h
  exact ⟨b, List.mem_append_left _ hb, c, List.mem_append_left _ hc, hrest⟩

theorem Stands.keeps (h : Stands time value mixed records t v) (hle : time a ≤ t)
    (hsame : time a = t → value a = v) : Stands time value mixed (records ++ [a]) t v := by
  refine ⟨h.newest.concat hle, ?_⟩
  rcases h.value with hagreed | ⟨hv, hsplit⟩
  · refine Or.inl fun b hb hbt => ?_
    rcases List.mem_append.mp hb with hb | hb
    · exact hagreed b hb hbt
    · rw [List.mem_singleton.mp hb] at hbt ⊢
      exact hsame hbt
  · exact Or.inr ⟨hv, hsplit.concat⟩

theorem Stands.disagrees (h : Stands time value mixed records t v) (hat : time a = t)
    (hne : value a ≠ v) : Stands time value mixed (records ++ [a]) t mixed := by
  refine ⟨h.newest.concat hat.le, Or.inr ⟨rfl, ?_⟩⟩
  rcases h.value with hagreed | ⟨-, hsplit⟩
  · obtain ⟨b, hb, hbt⟩ := h.newest.reached
    refine ⟨b, List.mem_append_left _ hb, a, by simp, hbt, hat, ?_⟩
    rw [hagreed b hb hbt]
    exact hne.symm
  · exact hsplit.concat

end Delegatus.LatestValues
