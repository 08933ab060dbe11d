import Mathlib.Data.List.Sort

/-!
# Sorting by distinct orders

Where no two elements of a list share an order, every comparison that respects the orders
sorts the list in the same way, whatever it makes of ties and even of an element against
itself.  `eraseDups` leaves no element twice.

Nothing here names a particular list.
-/

namespace Delegatus.DistinctSorts

variable {α : Type*}

theorem orderedInsert_congr {r s : α → α → Prop} [DecidableRel r] [DecidableRel s]
    {a : α} {l : List α} (h : ∀ b ∈ l, r a b ↔ s a b) : l.orderedInsert r a = l.orderedInsert s a := by
  induction l with
  | nil => rfl
  | cons b rest ih =>
    have hb := h b List.mem_cons_self
    rw [List.orderedInsert_cons, List.orderedInsert_cons,
      ih (fun c hc => h c (List.mem_cons_of_mem _ hc))]
    by_cases hrb : r a b
    · rw [if_pos hrb, if_pos (hb.mp hrb)]
    · rw [if_neg hrb, if_neg (fun hsb => hrb (hb.mpr hsb))]

/-- A sort never compares an element with itself. -/
theorem insertionSort_congr {r s : α → α → Prop} [DecidableRel r] [DecidableRel s]
    {l : List α} (hnodup : l.Nodup) (h : ∀ a ∈ l, ∀ b ∈ l, a ≠ b → (r a b ↔ s a b)) :
    l.insertionSort r = l.insertionSort s := by
  induction l with
  | nil => rfl
  | cons a rest ih =>
    obtain ⟨hfresh, hrest⟩ := List.nodup_cons.mp hnodup
    rw [List.insertionSort_cons, List.insertionSort_cons, ih hrest
      (fun b hb c hc => h b (List.mem_cons_of_mem _ hb) c (List.mem_cons_of_mem _ hc))]
    apply orderedInsert_congr
    intro b hb
    rw [List.mem_insertionSort] at hb
    exact h a List.mem_cons_self b (List.mem_cons_of_mem _ hb) (fun heq => hfresh (heq ▸ hb))

/-- Rows that differ in their orders are sorted by their orders, whatever breaks ties. -/
theorem pairwise_of_distinct {r : α → α → Prop} [DecidableRel r] {order : α → Nat}
    {l : List α} (hnodup : l.Nodup) (hdistinct : ∀ a ∈ l, ∀ b ∈ l, order a = order b → a = b)
    (hr : ∀ a b, order a ≠ order b → (r a b ↔ order a < order b)) :
    (l.insertionSort r).Pairwise fun a b => order a < order b := by
  have hsort : l.insertionSort r = l.insertionSort fun a b => order a ≤ order b := by
    apply insertionSort_congr hnodup
    intro a ha b hb hne
    have hdiffers : order a ≠ order b := fun heq => hne (hdistinct a ha b hb heq)
    rw [hr a b hdiffers]
    exact ⟨le_of_lt, fun hle => lt_of_le_of_ne hle hdiffers⟩
  have : Std.Total fun a b : α => order a ≤ order b := ⟨fun a b => le_total _ _⟩
  have : IsTrans α fun a b => order a ≤ order b := ⟨fun a b c => le_trans⟩
  have hle := List.pairwise_insertionSort (fun a b => order a ≤ order b) l
  rw [hsort]
  have hnodup' := (List.perm_insertionSort (fun a b => order a ≤ order b) l).nodup_iff.mpr hnodup
  apply (hle.and hnodup').imp_of_mem
  rintro a b ha hb ⟨hab, hne⟩
  rw [List.mem_insertionSort] at ha hb
  exact lt_of_le_of_ne hab (fun heq => hne (hdistinct a ha b hb heq))

/-- Two lists of the same elements at strictly increasing orders are one list. -/
theorem eq_of_mem_iff {order : α → Nat} {l l' : List α}
    (h : l.Pairwise fun a b => order a < order b) (h' : l'.Pairwise fun a b => order a < order b)
    (hmem : ∀ a, a ∈ l ↔ a ∈ l') : l = l' := by
  have : Std.Irrefl fun a b : α => order a < order b := ⟨fun a => lt_irrefl _⟩
  have : Std.Antisymm fun a b : α => order a < order b :=
    ⟨fun a b hab hba => absurd hab (lt_asymm hba)⟩
  exact List.Pairwise.eq_of_mem_iff h h' hmem

theorem nodup_eraseDups [BEq α] [LawfulBEq α] (l : List α) : l.eraseDups.Nodup := by
  induction hlength : l.length using Nat.strong_induction_on generalizing l with
  | _ n ih =>
    cases l with
    | nil => simp
    | cons a rest =>
      rw [List.eraseDups_cons, List.nodup_cons]
      constructor
      · simp
      · have hle := List.length_filter_le (fun b => !b == a) rest
        apply ih _ ?_ _ rfl
        rw [← hlength, List.length_cons]
        omega

theorem eraseDups_of_nodup [BEq α] [LawfulBEq α] {l : List α} (h : l.Nodup) : l.eraseDups = l := by
  induction l with
  | nil => simp
  | cons a rest ih =>
    obtain ⟨hnew, hrest⟩ := List.nodup_cons.mp h
    have hkeep : rest.filter (fun b => !b == a) = rest := by
      rw [List.filter_eq_self]
      intro b hb
      have hne : b ≠ a := fun heq => hnew (heq ▸ hb)
      simpa using hne
    rw [List.eraseDups_cons, hkeep, ih hrest]

end Delegatus.DistinctSorts
