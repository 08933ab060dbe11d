import Mathlib

/-!
# Counts in a sliding window

Dated items, each a key with a time, and how many items of a key lie in the window of a given length
that ends now.  As the window moves items enter and leave it; a bound that no item can cross before is
how long a count stays as it is.
-/

namespace Delegatus.SlidingWindows

variable {κ : Type*} [DecidableEq κ]

/-- The item lies in the window that ends at `now`. -/
def inside (window now time : Int) : Bool := time ≤ now && now - time ≤ window

theorem inside_iff {window now time : Int} : inside window now time = true ↔ time ≤ now ∧ now - time ≤ window := by
  rw [inside, Bool.and_eq_true, decide_eq_true_eq, decide_eq_true_eq]

/-- The items of a key in the window. -/
def windowed (window now : Int) (items : Multiset (κ × Int)) (k : κ) : ℕ :=
  items.countP fun item => item.1 = k ∧ inside window now item.2 = true

theorem windowed_add (window now : Int) (items more : Multiset (κ × Int)) (k : κ) :
    windowed window now (items + more) k = windowed window now items k + windowed window now more k :=
  Multiset.countP_add _ _ _

/-- No item crosses an edge of the window before the bound; `none` is no bound at all. -/
def Bounds (window now : Int) (bound : Option Int) (items : Multiset (κ × Int)) : Prop :=
  ∀ item ∈ items, (now < item.2 → ∃ time, bound = some time ∧ time ≤ item.2) ∧
    (inside window now item.2 = true → ∃ time, bound = some time ∧ time ≤ item.2 + window + 1)

omit [DecidableEq κ] in
theorem Bounds.inside_eq {window now later : Int} {bound : Option Int} {items : Multiset (κ × Int)}
    (h : Bounds window now bound items) (hnow : now ≤ later) (hlater : ∀ time, bound = some time → later < time)
    {item : κ × Int} (hitem : item ∈ items) : inside window later item.2 = inside window now item.2 := by
  obtain ⟨hfuture, hinside⟩ := h item hitem
  cases hcase : inside window now item.2 with
  | true =>
    obtain ⟨time, hbound, htime⟩ := hinside hcase
    have hbefore := hlater time hbound
    rw [inside_iff] at hcase ⊢
    omega
  | false =>
    rw [← Bool.not_eq_true, inside_iff] at hcase ⊢
    intro hlaterInside
    by_cases hahead : now < item.2
    · obtain ⟨time, hbound, htime⟩ := hfuture hahead
      have hbefore := hlater time hbound
      omega
    · omega

/-- **A count stays until the bound.** -/
theorem Bounds.windowed_eq {window now later : Int} {bound : Option Int} {items : Multiset (κ × Int)}
    (h : Bounds window now bound items) (hnow : now ≤ later) (hlater : ∀ time, bound = some time → later < time)
    (k : κ) : windowed window later items k = windowed window now items k := by
  apply Multiset.countP_congr rfl
  intro item hitem
  rw [h.inside_eq hnow hlater hitem]

/-- Items that enter the window as it moves. -/
def enters (window held now time : Int) : Bool := held < time && time ≤ now && now - window ≤ time

/-- Items that leave it. -/
def leaves (window held now time : Int) : Bool :=
  held - window ≤ time && time ≤ held && time < now - window

/-- **A moved window**: what it counts, and what left it, is what it counted and what entered. -/
theorem windowed_move {window held now : Int} (hmoved : held ≤ now) (items : Multiset (κ × Int)) (k : κ) :
    windowed window now items k +
        items.countP (fun item => item.1 = k ∧ leaves window held now item.2 = true) =
      windowed window held items k +
        items.countP (fun item => item.1 = k ∧ enters window held now item.2 = true) := by
  unfold windowed
  induction items using Multiset.induction_on with
  | empty => rfl
  | cons item rest ih =>
    simp only [Multiset.countP_cons]
    have hone : (if item.1 = k ∧ inside window now item.2 = true then 1 else 0) +
          (if item.1 = k ∧ leaves window held now item.2 = true then 1 else 0) =
        (if item.1 = k ∧ inside window held item.2 = true then 1 else 0) +
          (if item.1 = k ∧ enters window held now item.2 = true then 1 else 0) := by
      by_cases hk : item.1 = k
      · simp only [hk, true_and, inside, leaves, enters, Bool.and_eq_true, decide_eq_true_eq]
        split_ifs <;> omega
      · simp only [hk, false_and, if_false]
    omega

/-- What leaves the window was counted in it. -/
theorem leaves_le_windowed (window held now : Int) (items : Multiset (κ × Int)) (k : κ) :
    items.countP (fun item => item.1 = k ∧ leaves window held now item.2 = true) ≤ windowed window held items k := by
  unfold windowed
  induction items using Multiset.induction_on with
  | empty => exact Nat.le_refl _
  | cons item rest ih =>
    simp only [Multiset.countP_cons]
    apply Nat.add_le_add ih
    by_cases hleaves : item.1 = k ∧ leaves window held now item.2 = true
    · have hinside : item.1 = k ∧ inside window held item.2 = true := by
        refine ⟨hleaves.1, ?_⟩
        have hcase := hleaves.2
        rw [inside_iff]
        simp only [leaves, Bool.and_eq_true, decide_eq_true_eq] at hcase
        omega
      rw [if_pos hleaves, if_pos hinside]
    · rw [if_neg hleaves]
      exact Nat.zero_le _

/-! ### Signed changes -/

/-- What the changes add to a key, and what they take from it. -/
def total (changes : List (κ × Int)) (k : κ) : Int := (changes.map fun c => if c.1 = k then c.2 else 0).sum

def taken (changes : List (κ × Int)) (k : κ) : Int :=
  (changes.map fun c => if c.1 = k then max 0 (-c.2) else 0).sum

theorem taken_nonneg (changes : List (κ × Int)) (k : κ) : 0 ≤ taken changes k := by
  apply List.sum_nonneg
  intro amount hamount
  obtain ⟨change, -, rfl⟩ := List.mem_map.mp hamount
  split <;> omega

/-- **A state that shows counts follows a list of signed changes**, if no key has less than is taken
from it. -/
theorem fold_counts {σ : Type*} {change : σ → κ × Int → σ} {Shows : σ → (κ → ℕ) → Prop}
    (hstep : ∀ s n (m : ℕ) k d, Shows s n → (m : Int) = n k + d →
      Shows (change s (k, d)) (Function.update n k m))
    (changes : List (κ × Int)) {s : σ} {n m : κ → ℕ} (h : Shows s n)
    (hm : ∀ k, (m k : Int) = n k + total changes k) (htaken : ∀ k, taken changes k ≤ n k) :
    Shows (changes.foldl change s) m := by
  induction changes generalizing s n with
  | nil =>
    have hsame : n = m := by
      funext k
      have hk := hm k
      simp only [total, List.map_nil, List.sum_nil] at hk
      omega
    rw [← hsame]
    exact h
  | cons first rest ih =>
    obtain ⟨k, d⟩ := first
    have htakenCons : ∀ j, taken ((k, d) :: rest) j = (if k = j then max 0 (-d) else 0) + taken rest j :=
      fun _ => List.sum_cons
    have htotalCons : ∀ j, total ((k, d) :: rest) j = (if k = j then d else 0) + total rest j :=
      fun _ => List.sum_cons
    have henough := htaken k
    rw [htakenCons, if_pos rfl] at henough
    have hrest := taken_nonneg rest k
    apply ih (hstep s n (n k + d).toNat k d h (Int.toNat_of_nonneg (by omega)))
    · intro j
      have hj := hm j
      rw [htotalCons] at hj
      by_cases hkj : k = j
      · subst hkj
        rw [Function.update_self]
        rw [if_pos rfl] at hj
        omega
      · rw [Function.update_of_ne (Ne.symm hkj)]
        rw [if_neg hkj] at hj
        omega
    · intro j
      have hj := htaken j
      rw [htakenCons] at hj
      by_cases hkj : k = j
      · subst hkj
        rw [Function.update_self]
        omega
      · rw [Function.update_of_ne (Ne.symm hkj)]
        rw [if_neg hkj] at hj
        omega

/-- Changes with one change for each key. -/
theorem sum_of_nodup (f : Int → Int) {changes : List (κ × Int)} (h : (changes.map Prod.fst).Nodup) {k : κ} {d : Int}
    (hmem : (k, d) ∈ changes) : (changes.map fun c => if c.1 = k then f c.2 else 0).sum = f d := by
  induction changes with
  | nil => exact nomatch hmem
  | cons first rest ih =>
    obtain ⟨hfresh, hrest⟩ := List.nodup_cons.mp h
    rw [List.map_cons, List.sum_cons]
    rcases List.mem_cons.mp hmem with hfirst | hother
    · have hzero : (rest.map fun c => if c.1 = k then f c.2 else 0).sum = 0 := by
        apply List.sum_eq_zero
        intro amount hamount
        obtain ⟨change, hchange, rfl⟩ := List.mem_map.mp hamount
        rw [if_neg]
        intro hsame
        rw [← hfirst] at hfresh
        exact hfresh (List.mem_map.mpr ⟨change, hchange, hsame⟩)
      rw [hzero, ← hfirst, if_pos rfl, add_zero]
    · have hne : first.1 ≠ k := fun hsame => hfresh (List.mem_map.mpr ⟨(k, d), hother, hsame.symm⟩)
      rw [if_neg hne, zero_add, ih hrest hother]

end Delegatus.SlidingWindows
