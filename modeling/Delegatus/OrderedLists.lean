import Delegatus.Entries
import Mathlib.Algebra.BigOperators.Group.List.Basic
import Mathlib.Data.List.Basic
import Mathlib.Data.List.DropRight
import Mathlib.Data.Multiset.AddSub
import Mathlib.Data.Multiset.Filter

/-!
# Ordered lists and their indexes

A list that is kept in the order of a comparator: items are inserted and removed at the place that a
binary search finds.  An index holds the items of a list by a value that they have.

The search finds the place as long as the list is in the order of the comparator itself; `Indexed`
says what an index holds, as multisets, under additions and removals.
-/

namespace Delegatus.OrderedLists

/-! ### The search -/

section Search

variable {α : Type*}

/-- `while (low < high)`, with a step for each item. -/
def search (below : α → Bool) (items : List α) : ℕ → ℕ → ℕ → ℕ
  | 0, low, _ => low
  | fuel + 1, low, high =>
    if low < high then
      let mid := (low + high) / 2
      if (items[mid]?).any below then search below items fuel (mid + 1) high
      else search below items fuel low mid
    else low

/-- The first place whose item is not below `item`. -/
def place (compare : α → α → Int) (items : List α) (item : α) : ℕ :=
  search (fun other => decide (compare other item < 0)) items items.length 0 items.length

theorem search_of_split {below : α → Bool} {front back : List α} (hfront : ∀ a ∈ front, below a = true)
    (hback : ∀ a ∈ back, below a = false) {fuel low high : ℕ} (hlow : low ≤ front.length)
    (hhigh : front.length ≤ high) (hlength : high ≤ (front ++ back).length) (hfuel : high - low ≤ fuel) :
    search below (front ++ back) fuel low high = front.length := by
  induction fuel generalizing low high with
  | zero =>
    rw [search]
    omega
  | succ fuel ih =>
    rw [search]
    by_cases hless : low < high
    · rw [if_pos hless]
      dsimp only
      have hmid : (low + high) / 2 < (front ++ back).length := by omega
      rw [List.getElem?_eq_getElem hmid, Option.any_some]
      by_cases hside : (low + high) / 2 < front.length
      · have hbelow : below (front ++ back)[(low + high) / 2] = true := by
          rw [List.getElem_append_left hside]
          exact hfront _ (List.getElem_mem hside)
        rw [if_pos hbelow]
        exact ih (by omega) hhigh hlength (by omega)
      · have hnot : below (front ++ back)[(low + high) / 2] = false := by
          rw [List.getElem_append_right (by omega)]
          exact hback _ (List.getElem_mem _)
        rw [hnot, if_neg Bool.false_ne_true]
        exact ih hlow (by omega) (by omega) (by omega)
    · rw [if_neg hless]
      omega

variable {compare : α → α → Int}

/-- The list is in the order of the comparator. -/
def InOrder (compare : α → α → Int) (items : List α) : Prop := items.Pairwise fun a b => compare a b < 0

/-- The comparator is transitive and does not put two items before each other. -/
structure Comparator (compare : α → α → Int) : Prop where
  asymm : ∀ {a b}, compare a b < 0 → ¬compare b a < 0
  trans : ∀ {a b c}, compare a b < 0 → compare b c < 0 → compare a c < 0

/-- An ordered list splits at an item. -/
theorem InOrder.split (hcompare : Comparator compare) {items : List α} (h : InOrder compare items) (item : α) :
    ∃ front back, items = front ++ back ∧ (∀ a ∈ front, compare a item < 0) ∧ ∀ a ∈ back, ¬compare a item < 0 := by
  induction items with
  | nil => exact ⟨[], [], rfl, (fun _ ha => nomatch ha), fun _ ha => nomatch ha⟩
  | cons first rest ih =>
    obtain ⟨hfirst, hrest⟩ := List.pairwise_cons.mp h
    obtain ⟨front, back, rfl, hfront, hback⟩ := ih hrest
    by_cases hbelow : compare first item < 0
    · refine ⟨first :: front, back, rfl, fun a ha => ?_, hback⟩
      rcases List.mem_cons.mp ha with rfl | ha
      · exact hbelow
      · exact hfront a ha
    · refine ⟨[], first :: (front ++ back), rfl, (fun _ ha => nomatch ha), fun a ha hless => ?_⟩
      rcases List.mem_cons.mp ha with rfl | ha
      · exact hbelow hless
      · exact hbelow (hcompare.trans (hfirst a ha) hless)

theorem place_of_split {front back : List α} {item : α} (hfront : ∀ a ∈ front, compare a item < 0)
    (hback : ∀ a ∈ back, ¬compare a item < 0) : place compare (front ++ back) item = front.length := by
  apply search_of_split
  · exact fun a ha => decide_eq_true (hfront a ha)
  · exact fun a ha => decide_eq_false (hback a ha)
  · exact Nat.zero_le _
  · rw [List.length_append]
    exact Nat.le_add_right _ _
  · exact Nat.le_refl _
  · omega

/-! ### Insertions and removals -/

/-- `items.splice(low, 0, item)`. -/
def insertOrdered (compare : α → α → Int) (items : List α) (item : α) : List α :=
  let low := place compare items item
  items.take low ++ item :: items.drop low

theorem insertOrdered_perm (items : List α) (item : α) : (insertOrdered compare items item).Perm (item :: items) := by
  unfold insertOrdered
  dsimp only
  have hsplit := @List.perm_middle _ item (items.take (place compare items item)) (items.drop (place compare items item))
  rw [List.take_append_drop] at hsplit
  exact hsplit

/-- **An insertion keeps the order**, if the item compares with the others. -/
theorem InOrder.insertOrdered (hcompare : Comparator compare) {items : List α} (h : InOrder compare items) {item : α}
    (hitem : ∀ a ∈ items, compare a item < 0 ∨ compare item a < 0) :
    InOrder compare (insertOrdered compare items item) := by
  obtain ⟨front, back, rfl, hfront, hback⟩ := h.split hcompare item
  unfold OrderedLists.insertOrdered
  dsimp only
  rw [place_of_split hfront hback, List.take_left, List.drop_left]
  obtain ⟨hfrontOrder, hbackOrder, hcross⟩ := List.pairwise_append.mp h
  refine List.pairwise_append.mpr ⟨hfrontOrder, List.pairwise_cons.mpr ⟨fun a ha => ?_, hbackOrder⟩, ?_⟩
  · exact (hitem a (List.mem_append_right _ ha)).resolve_left (hback a ha)
  · intro a ha b hb
    rcases List.mem_cons.mp hb with rfl | hb
    · exact hfront a ha
    · exact hcross a ha b hb

variable [DecidableEq α]

/-- The item at the place is removed if it is the same item. -/
def removeOrdered (compare : α → α → Int) (items : List α) (item : α) : List α :=
  let low := place compare items item
  if items[low]? = some item then items.eraseIdx low else items

theorem removeOrdered_of_not_mem {items : List α} {item : α} (h : item ∉ items) :
    removeOrdered compare items item = items := by
  unfold removeOrdered
  dsimp only
  rw [if_neg]
  exact fun hsome => h (List.mem_of_getElem? hsome)

/-- **A removal from an ordered list removes the item.** -/
theorem InOrder.removeOrdered (hcompare : Comparator compare) {items : List α} (h : InOrder compare items) {item : α}
    (hitem : item ∈ items) : OrderedLists.removeOrdered compare items item = items.erase item := by
  have hirrefl : ∀ a, ¬compare a a < 0 := fun a hself => hcompare.asymm hself hself
  obtain ⟨before, after, rfl⟩ := List.append_of_mem hitem
  obtain ⟨-, hafter, hcross⟩ := List.pairwise_append.mp h
  have hfront : ∀ a ∈ before, compare a item < 0 := fun a ha => hcross a ha item List.mem_cons_self
  have hback : ∀ a ∈ item :: after, ¬compare a item < 0 := by
    intro a ha
    rcases List.mem_cons.mp ha with rfl | ha
    · exact hirrefl a
    · exact hcompare.asymm ((List.pairwise_cons.mp hafter).1 a ha)
  have hfresh : item ∉ before := fun hmem => hirrefl item (hfront item hmem)
  unfold OrderedLists.removeOrdered
  dsimp only
  rw [place_of_split hfront hback, List.getElem?_append_right (Nat.le_refl _), Nat.sub_self, List.getElem?_cons_zero,
    if_pos rfl, List.eraseIdx_append_of_length_le (Nat.le_refl _), Nat.sub_self, List.eraseIdx_cons_zero,
    List.erase_append_right _ hfresh, List.erase_cons_head]

theorem InOrder.erase {items : List α} (h : InOrder compare items) (item : α) : InOrder compare (items.erase item) :=
  h.sublist List.erase_sublist

omit [DecidableEq α] in
/-- Two ordered lists of the same items are equal. -/
theorem InOrder.eq_of_mem_iff (hcompare : Comparator compare) {items others : List α} (h : InOrder compare items)
    (hothers : InOrder compare others) (hmem : ∀ a, a ∈ items ↔ a ∈ others) : items = others := by
  have hnodup : ∀ {list : List α}, InOrder compare list → list.Nodup := by
    intro list hlist
    apply List.Pairwise.imp _ hlist
    rintro a b hless rfl
    exact hcompare.asymm hless hless
  have hperm := (List.perm_ext_iff_of_nodup (hnodup h) (hnodup hothers)).mpr hmem
  exact hperm.eq_of_pairwise (fun a b _ _ hab hba => absurd hba (hcompare.asymm hab)) h hothers

end Search

/-! ### Sorts -/

section Sorts

variable {α : Type*} {compare : α → α → Int}

/-- Opposite signs for opposite arguments, and transitivity. -/
structure Consistent (compare : α → α → Int) : Prop where
  antisymm : ∀ a b, compare a b < 0 ↔ 0 < compare b a
  trans : ∀ a b c, compare a b ≤ 0 → compare b c ≤ 0 → compare a c ≤ 0

theorem Consistent.comparator (h : Consistent compare) : Comparator compare where
  asymm {a b} hab hba := by
    have hpos := (h.antisymm a b).mp hab
    omega
  trans {a b c} hab hbc := by
    have hle := h.trans a b c (Int.le_of_lt hab) (Int.le_of_lt hbc)
    by_contra hnot
    have hback : compare c a ≤ 0 := by
      by_contra hpos
      exact hnot ((h.antisymm a c).mpr (Int.not_le.mp hpos))
    have hca := h.trans b c a (Int.le_of_lt hbc) hback
    have hpos := (h.antisymm a b).mp hab
    omega

/-- A sort puts items that compare in order. -/
theorem Consistent.sort_inOrder (h : Consistent compare) {items : List α}
    (hitems : items.Pairwise fun a b => compare a b ≠ 0) :
    InOrder compare (items.mergeSort fun a b => decide (compare a b ≤ 0)) := by
  have hsorted := @List.pairwise_mergeSort _ (fun a b => decide (compare a b ≤ 0))
    (fun a b c hab hbc => by
      rw [decide_eq_true_eq] at hab hbc ⊢
      exact h.trans a b c hab hbc)
    (fun a b => by
      rw [Bool.or_eq_true, decide_eq_true_eq, decide_eq_true_eq]
      have hsign := h.antisymm b a
      omega) items
  have hsymm : ∀ {a b : α}, compare a b ≠ 0 → compare b a ≠ 0 := by
    intro a b hne
    have hab := h.antisymm a b
    have hba := h.antisymm b a
    omega
  have hne := (List.mergeSort_perm items fun a b => decide (compare a b ≤ 0)).symm.pairwise hitems hsymm
  apply (hsorted.and hne).imp
  rintro a b ⟨hle, hapart⟩
  rw [decide_eq_true_eq] at hle
  omega

theorem InOrder.trichotomy {items : List α} (h : InOrder compare items) {a b : α} (ha : a ∈ items) (hb : b ∈ items) :
    compare a b < 0 ∨ a = b ∨ compare b a < 0 := by
  induction items with
  | nil => exact absurd ha List.not_mem_nil
  | cons first rest ih =>
    obtain ⟨hfirst, hrest⟩ := List.pairwise_cons.mp h
    rcases List.mem_cons.mp ha with rfl | harest
    · rcases List.mem_cons.mp hb with rfl | hbrest
      · exact Or.inr (Or.inl rfl)
      · exact Or.inl (hfirst b hbrest)
    · rcases List.mem_cons.mp hb with rfl | hbrest
      · exact Or.inr (Or.inr (hfirst a harest))
      · exact ih hrest harest hbrest

/-- What is after the last items is after all. -/
theorem InOrder.before_of_rtake (hcompare : Comparator compare) {items : List α} (h : InOrder compare items) {n : ℕ}
    (hn : 0 < n) {item : α} (hlast : ∀ a ∈ items.rtake n, compare a item < 0) : ∀ a ∈ items, compare a item < 0 := by
  intro a ha
  rw [← List.take_append_drop (items.length - n) items] at ha h
  rcases List.mem_append.mp ha with hfront | hback
  · have hne : items.drop (items.length - n) ≠ [] := by
      intro hnil
      have hlength := congrArg List.length hnil
      rw [List.length_drop, List.length_nil] at hlength
      have hpos := List.length_pos_of_mem (List.mem_of_mem_take hfront)
      omega
    have hbetween := (List.pairwise_append.mp h).2.2 a hfront _ (List.head_mem hne)
    exact hcompare.trans hbetween (hlast _ (List.head_mem hne))
  · exact hlast a hback

theorem rtake_rtake (items : List α) {m n : ℕ} (h : n ≤ m) : (items.rtake m).rtake n = items.rtake n := by
  unfold List.rtake
  rw [List.drop_drop, List.length_drop]
  congr 1
  omega

end Sorts

/-! ### Indexes -/

section Indexes

variable {α κ : Type*} [DecidableEq α] [DecidableEq κ]

/-- An item joins those of its value; an item without a value is not indexed. -/
def indexOwner (index : Entries κ (List α)) (value : Option κ) (item : α) : Entries κ (List α) :=
  match value with
  | none => index
  | some value => index.set (value, (index.at? value).getD [] ++ [item])

def unindexOwner (index : Entries κ (List α)) (value : Option κ) (item : α) : Entries κ (List α) :=
  match value with
  | none => index
  | some value =>
    match index.at? value with
    | none => index
    | some items =>
      if (items.erase item).isEmpty then index.delete value else index.set (value, items.erase item)

/-- The index holds the items by the values that `value` gives them. -/
def Indexed (index : Entries κ (List α)) (value : α → Option κ) (items : Multiset α) : Prop :=
  ∀ k, (((index.at? k).getD [] : List α) : Multiset α) = items.filter fun a => value a = some k

variable {index : Entries κ (List α)} {value : α → Option κ} {items : Multiset α}

omit [DecidableEq α] in
theorem indexed_empty (value : α → Option κ) : Indexed (Table.empty : Entries κ (List α)) value 0 := fun _ => rfl

omit [DecidableEq α] in
theorem Indexed.indexOwner (h : Indexed index value items) (item : α) :
    Indexed (indexOwner index (value item) item) value (item ::ₘ items) := by
  intro k
  unfold OrderedLists.indexOwner
  cases hvalue : value item with
  | none =>
    rw [Multiset.filter_cons_of_neg _ (by simp [hvalue])]
    exact h k
  | some v =>
    dsimp only
    rw [Entries.at?_set]
    by_cases hk : k = v
    · subst hk
      rw [if_pos rfl, Option.getD_some, Multiset.filter_cons_of_pos (s := items) (p := fun a => value a = some k) hvalue, ← h k,
        Multiset.cons_coe]
      exact Multiset.coe_eq_coe.mpr (List.perm_append_singleton _ _)
    · rw [if_neg hk, Multiset.filter_cons_of_neg _ (by simp [hvalue, Ne.symm hk])]
      exact h k

theorem Indexed.unindexOwner (h : Indexed index value items) (item : α) :
    Indexed (unindexOwner index (value item) item) value (items.erase item) := by
  intro k
  have hsplit : (items.erase item).filter (fun a => value a = some k) =
      if value item = some k then (items.filter fun a => value a = some k).erase item
      else items.filter fun a => value a = some k := by
    by_cases hmem : item ∈ items
    · obtain ⟨rest, rfl⟩ := Multiset.exists_cons_of_mem hmem
      rw [Multiset.erase_cons_head]
      by_cases hv : value item = some k
      · rw [if_pos hv, Multiset.filter_cons_of_pos (s := rest) (p := fun a => value a = some k) hv, Multiset.erase_cons_head]
      · rw [if_neg hv, Multiset.filter_cons_of_neg (s := rest) (p := fun a => value a = some k) hv]
    · rw [Multiset.erase_of_notMem hmem]
      split
      · rw [Multiset.erase_of_notMem fun hin => hmem (Multiset.mem_of_mem_filter hin)]
      · rfl
  rw [hsplit, ← h k]
  unfold OrderedLists.unindexOwner
  cases hvalue : value item with
  | none => rw [if_neg (by simp)]
  | some v =>
    dsimp only
    by_cases hk : k = v
    · subst hk
      rw [if_pos rfl]
      cases hat : index.at? k with
      | none =>
        dsimp only
        rw [hat]
        rfl
      | some held =>
        dsimp only
        split
        · next hempty =>
          rw [Entries.at?_delete, if_pos rfl, Option.getD_some, Multiset.coe_erase,
            List.isEmpty_iff.mp hempty]
          rfl
        · rw [Entries.at?_set, if_pos rfl, Option.getD_some, Option.getD_some, Multiset.coe_erase]
    · rw [if_neg fun hsame => hk (Option.some.inj hsame).symm]
      cases hat : index.at? v with
      | none => rfl
      | some held =>
        dsimp only
        split
        · rw [Entries.at?_delete, if_neg hk]
        · rw [Entries.at?_set, if_neg hk]

omit [DecidableEq α] in
/-- The items of a value leave the index with its entry. -/
theorem Indexed.delete (h : Indexed index value items) (k : κ) :
    Indexed (index.delete k) value (items.filter fun a => value a ≠ some k) := by
  intro k'
  rw [Entries.at?_delete, Multiset.filter_filter]
  by_cases hk : k' = k
  · subst hk
    rw [if_pos rfl]
    symm
    rw [Option.getD_none, Multiset.coe_nil, Multiset.filter_eq_nil]
    exact fun a _ hboth => hboth.2 hboth.1
  · rw [if_neg hk, h k']
    apply Multiset.filter_congr
    intro a _
    constructor
    · intro hv
      refine ⟨hv, fun hother => hk ?_⟩
      exact Option.some.inj (hv.symm.trans hother)
    · exact And.left

omit [DecidableEq α] in
/-- All items of a value come at once. -/
theorem Indexed.set (h : Indexed index value items) (k : κ) (new : List α)
    (hnone : ∀ a ∈ items, value a ≠ some k) (hnew : ∀ a ∈ new, value a = some k) : Indexed (index.set (k, new)) value ((new : Multiset α) + items) := by
  intro k'
  rw [Entries.at?_set, Multiset.filter_add]
  by_cases hk : k' = k
  · subst hk
    rw [if_pos rfl, Option.getD_some, Multiset.filter_eq_self.mpr fun a ha => hnew a (Multiset.mem_coe.mp ha),
      Multiset.filter_eq_nil.mpr hnone, Multiset.add_zero]
  · have hother : (new : Multiset α).filter (fun a => value a = some k') = 0 := by
      rw [Multiset.filter_eq_nil]
      intro a ha hvalue
      exact hk (Option.some.inj (hvalue.symm.trans (hnew a (Multiset.mem_coe.mp ha))))
    rw [if_neg hk, h k', hother, Multiset.zero_add]

omit [DecidableEq α] in
theorem Indexed.mem_iff (h : Indexed index value items) {item : α} {k : κ} :
    item ∈ (index.at? k).getD [] ↔ item ∈ items ∧ value item = some k := by
  rw [← Multiset.mem_coe, h k, Multiset.mem_filter]

/-- The lists of an index are all items, if each has a value. -/
theorem Indexed.all (h : Indexed index value items) (hvalue : ∀ a ∈ items, ∃ k, value a = some k) :
    ((index.rows.flatMap Prod.snd : List α) : Multiset α) = items := by
  ext a
  rw [Multiset.coe_count, List.count_flatMap]
  have hrow : ∀ row ∈ index.rows, row.2.count a = if value a = some row.1 then items.count a else 0 := by
    rintro ⟨k, held⟩ hrow
    have hat := h k
    rw [Entries.at?_eq_some.mpr hrow, Option.getD_some] at hat
    rw [← Multiset.coe_count, hat, Multiset.count_filter]
  by_cases hmem : a ∈ items
  · obtain ⟨k, hk⟩ := hvalue a hmem
    have hin := (h.mem_iff (k := k)).mpr ⟨hmem, hk⟩
    cases hat : index.at? k with
    | none =>
      rw [hat] at hin
      exact absurd hin List.not_mem_nil
    | some held =>
      obtain ⟨front, back, hsplit⟩ := List.append_of_mem (Entries.at?_eq_some.mp hat)
      have hkeys := index.nodup
      rw [hsplit, List.map_append, List.map_cons] at hkeys
      have hfresh : ∀ row ∈ front ++ back, row.2.count a = 0 := by
        intro row hother
        have hmemRow : row ∈ index.rows := by
          rw [hsplit]
          rcases List.mem_append.mp hother with hfront | hback
          · exact List.mem_append_left _ hfront
          · exact List.mem_append_right _ (List.mem_cons_of_mem _ hback)
        rw [hrow row hmemRow, if_neg]
        intro hsame
        obtain rfl := Option.some.inj (hk.symm.trans hsame)
        have hperm := (List.nodup_middle.mp hkeys)
        rw [List.nodup_cons, ← List.map_append] at hperm
        exact hperm.1 (List.mem_map.mpr ⟨row, hother, rfl⟩)
      have hown := hrow (k, held) (hsplit ▸ List.mem_append_right _ List.mem_cons_self)
      rw [if_pos hk] at hown
      rw [hsplit, List.map_append, List.map_cons, List.sum_append, List.sum_cons]
      have hfront : (front.map fun row => row.2.count a).sum = 0 :=
        List.sum_eq_zero fun count hcount => by
          obtain ⟨row, hrowMem, rfl⟩ := List.mem_map.mp hcount
          exact hfresh row (List.mem_append_left _ hrowMem)
      have hback : (back.map fun row => row.2.count a).sum = 0 :=
        List.sum_eq_zero fun count hcount => by
          obtain ⟨row, hrowMem, rfl⟩ := List.mem_map.mp hcount
          exact hfresh row (List.mem_append_right _ hrowMem)
      exact (congrArg₂ (fun left right => left + (held.count a + right)) hfront hback).trans (by simpa using hown)
  · rw [Multiset.count_eq_zero_of_notMem hmem]
    apply List.sum_eq_zero
    intro count hcount
    obtain ⟨row, hrowMem, rfl⟩ := List.mem_map.mp hcount
    show row.2.count a = 0
    rw [hrow row hrowMem, Multiset.count_eq_zero_of_notMem hmem, ite_self]

end Indexes

end Delegatus.OrderedLists
