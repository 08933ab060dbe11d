import Delegatus.HeadlessRoundLog
import Mathlib

/-!
# The indexes of the headless rounds

`CacheHolds` says that the walk is in the order of its comparator, that its views and bytes are those of
its rows, that the rows of a flow are found under the flow, and that the dead rounds are found under
their flow, path and conversation.  Each change of the cache keeps it.
-/

namespace Delegatus.History

open RowGroups OrderedLists

/-! ### The comparator -/

/-- `localeCompare` is a total preorder: it is antisymmetric in sign, and transitive. -/
structure LocaleOrder (localeCompare : String → String → Int) : Prop where
  antisymm : ∀ a b, localeCompare a b < 0 ↔ 0 < localeCompare b a
  trans : ∀ a b c, localeCompare a b ≤ 0 → localeCompare b c ≤ 0 → localeCompare a c ≤ 0

variable {localeCompare : String → String → Int}

theorem rowOrder_neg {a b : HeadlessRow} : rowOrder localeCompare a b < 0 ↔
    a.rowOrder < b.rowOrder ∨ (a.rowOrder = b.rowOrder ∧ (localeCompare a.rowKey b.rowKey < 0 ∨
      (localeCompare a.rowKey b.rowKey = 0 ∧ a.round < b.round))) := by
  unfold rowOrder
  split_ifs <;> omega

theorem comparator_rowOrder (hlocale : LocaleOrder localeCompare) : Comparator (rowOrder localeCompare) where
  asymm {a b} hab hba := by
    rw [rowOrder_neg] at hab hba
    have hleft := hlocale.antisymm a.rowKey b.rowKey
    have hright := hlocale.antisymm b.rowKey a.rowKey
    omega
  trans {a b c} hab hbc := by
    rw [rowOrder_neg] at hab hbc ⊢
    have hab' := hlocale.antisymm a.rowKey b.rowKey
    have hba' := hlocale.antisymm b.rowKey a.rowKey
    have hbc' := hlocale.antisymm b.rowKey c.rowKey
    have hcb' := hlocale.antisymm c.rowKey b.rowKey
    have hac' := hlocale.antisymm a.rowKey c.rowKey
    have hca' := hlocale.antisymm c.rowKey a.rowKey
    have habc := hlocale.trans a.rowKey b.rowKey c.rowKey
    have hbca := hlocale.trans b.rowKey c.rowKey a.rowKey
    have hcab := hlocale.trans c.rowKey a.rowKey b.rowKey
    omega

theorem comparator_objectOrder (hlocale : LocaleOrder localeCompare) : Comparator (objectOrder localeCompare) where
  asymm hab := (comparator_rowOrder hlocale).asymm hab
  trans hab hbc := (comparator_rowOrder hlocale).trans hab hbc

/-- Two rounds compare, if their flows do. -/
theorem rowOrder_total (hlocale : LocaleOrder localeCompare) {a b : HeadlessRow} (hne : roundKey a ≠ roundKey b)
    (hapart : localeCompare a.rowKey b.rowKey = 0 → a.rowKey = b.rowKey) :
    rowOrder localeCompare a b < 0 ∨ rowOrder localeCompare b a < 0 := by
  rw [rowOrder_neg, rowOrder_neg]
  have hleft := hlocale.antisymm a.rowKey b.rowKey
  have hright := hlocale.antisymm b.rowKey a.rowKey
  have hround : localeCompare a.rowKey b.rowKey = 0 → a.round ≠ b.round :=
    fun hzero hsame => hne (Prod.ext (hapart hzero) hsame)
  omega

/-! ### The walk -/

variable (localeCompare) (sizes : Sizes)

/-- The bytes of the views of some rows. -/
def viewTotal (objects : List RowObject) : ℕ := (objects.map fun object => sizes.view object.row + 8).sum

structure WalkHolds (cache : HeadlessCache) : Prop where
  order : InOrder (objectOrder localeCompare) cache.rows
  flows : cache.flows = cache.rows
  views : ∀ object ∈ cache.rows, cache.views.at? object.id = some object ∧
    cache.viewBytes.at? object.id = some (sizes.view object.row + 8)
  noViews : ∀ id, (∀ object ∈ cache.rows, object.id ≠ id) →
    cache.views.at? id = none ∧ cache.viewBytes.at? id = none
  flowBytes : cache.flowBytes = (viewTotal sizes cache.rows : Int) + 2

variable {localeCompare sizes} {cache : HeadlessCache}

theorem WalkHolds.nodup (hlocale : LocaleOrder localeCompare) (h : WalkHolds localeCompare sizes cache) :
    cache.rows.Nodup := by
  apply List.Pairwise.imp _ h.order
  rintro a b hless rfl
  exact (comparator_objectOrder hlocale).asymm hless hless

theorem viewTotal_erase {objects : List RowObject} {object : RowObject} (h : object ∈ objects) :
    viewTotal sizes (objects.erase object) + (sizes.view object.row + 8) = viewTotal sizes objects := by
  have hperm := (List.perm_cons_erase h).map fun object => sizes.view object.row + 8
  have hsum := hperm.sum_eq
  rw [List.map_cons, List.sum_cons] at hsum
  unfold viewTotal
  omega

theorem dropRow_views (cache : HeadlessCache) (object : RowObject) (id : ℕ) :
    (dropRow localeCompare cache object).views.at? id = if id = object.id then none else cache.views.at? id :=
  Entries.at?_delete cache.views object.id id

theorem dropRow_viewBytes (cache : HeadlessCache) (object : RowObject) (id : ℕ) :
    (dropRow localeCompare cache object).viewBytes.at? id =
      if id = object.id then none else cache.viewBytes.at? id :=
  Entries.at?_delete cache.viewBytes object.id id

theorem addRow_views (cache : HeadlessCache) (object : RowObject) (id : ℕ) :
    (addRow localeCompare sizes cache object).views.at? id =
      if id = object.id then some object else cache.views.at? id :=
  Entries.at?_set cache.views object.id id object

theorem addRow_viewBytes (cache : HeadlessCache) (object : RowObject) (id : ℕ) :
    (addRow localeCompare sizes cache object).viewBytes.at? id =
      if id = object.id then some (sizes.view object.row + 8) else cache.viewBytes.at? id :=
  Entries.at?_set cache.viewBytes object.id id (sizes.view object.row + 8)

/-- **A row leaves the walk**, if it is there. -/
theorem WalkHolds.dropRow (hlocale : LocaleOrder localeCompare) (h : WalkHolds localeCompare sizes cache)
    {object : RowObject} (hsame : ∀ other ∈ cache.rows, other.id = object.id → other = object) :
    (History.dropRow localeCompare cache object).rows = cache.rows.erase object ∧
      WalkHolds localeCompare sizes (History.dropRow localeCompare cache object) := by
  have hcompare := comparator_objectOrder hlocale
  by_cases hmem : object ∈ cache.rows
  · obtain ⟨hview, hbytes⟩ := h.views object hmem
    have hrows : (History.dropRow localeCompare cache object).rows = cache.rows.erase object :=
      h.order.removeOrdered hcompare hmem
    refine ⟨hrows, ⟨?_, ?_, ?_, ?_, ?_⟩⟩
    · rw [hrows]
      exact h.order.erase object
    · rw [hrows]
      show (cache.views.at? object.id).elim cache.flows
        (removeOrdered (objectOrder localeCompare) cache.flows) = cache.rows.erase object
      rw [hview, h.flows]
      exact h.order.removeOrdered hcompare hmem
    · intro other hother
      rw [hrows] at hother
      have hin := List.mem_of_mem_erase hother
      have hne : other.id ≠ object.id := by
        intro hid
        obtain rfl := hsame other hin hid
        exact (h.nodup hlocale).not_mem_erase hother
      rw [dropRow_views, dropRow_viewBytes, if_neg hne, if_neg hne]
      exact h.views other hin
    · intro id hid
      rw [hrows] at hid
      rw [dropRow_views, dropRow_viewBytes]
      by_cases hobject : id = object.id
      · rw [if_pos hobject, if_pos hobject]
        exact ⟨rfl, rfl⟩
      · rw [if_neg hobject, if_neg hobject]
        apply h.noViews
        intro other hother hsameId
        by_cases heq : other = object
        · exact hobject (hsameId ▸ heq ▸ rfl)
        · exact hid other ((List.mem_erase_of_ne heq).mpr hother) hsameId
    · rw [hrows]
      show cache.flowBytes - ((cache.viewBytes.at? object.id).getD 0 : ℕ) = _
      rw [hbytes, Option.getD_some, h.flowBytes, ← viewTotal_erase hmem]
      push_cast
      omega
  · obtain ⟨hview, hbytes⟩ := h.noViews object.id fun other hother hid => hmem (hsame other hother hid ▸ hother)
    have hrows : (History.dropRow localeCompare cache object).rows = cache.rows :=
      removeOrdered_of_not_mem hmem
    refine ⟨hrows.trans (List.erase_of_not_mem hmem).symm, ⟨?_, ?_, ?_, ?_, ?_⟩⟩
    · rw [hrows]
      exact h.order
    · rw [hrows]
      show (cache.views.at? object.id).elim cache.flows _ = cache.rows
      rw [hview]
      exact h.flows
    · intro other hother
      rw [hrows] at hother
      have hne : other.id ≠ object.id := fun hid => hmem (hsame other hother hid ▸ hother)
      rw [dropRow_views, dropRow_viewBytes, if_neg hne, if_neg hne]
      exact h.views other hother
    · intro id hid
      rw [hrows] at hid
      rw [dropRow_views, dropRow_viewBytes]
      obtain ⟨hviews, hviewBytes⟩ := h.noViews id hid
      rw [hviews, hviewBytes, ite_self, ite_self]
      exact ⟨rfl, rfl⟩
    · rw [hrows]
      show cache.flowBytes - ((cache.viewBytes.at? object.id).getD 0 : ℕ) = _
      rw [hbytes, Option.getD_none, h.flowBytes]
      omega

/-- **A row joins the walk**, if it is new and compares with the others. -/
theorem WalkHolds.addRow (hlocale : LocaleOrder localeCompare) (h : WalkHolds localeCompare sizes cache)
    {object : RowObject} (hnew : ∀ other ∈ cache.rows, other.id ≠ object.id)
    (hcompares : ∀ other ∈ cache.rows,
      objectOrder localeCompare other object < 0 ∨ objectOrder localeCompare object other < 0) :
    (History.addRow localeCompare sizes cache object).rows.Perm (object :: cache.rows) ∧
      WalkHolds localeCompare sizes (History.addRow localeCompare sizes cache object) := by
  have hperm : (History.addRow localeCompare sizes cache object).rows.Perm (object :: cache.rows) :=
    insertOrdered_perm cache.rows object
  refine ⟨hperm, ⟨?_, ?_, ?_, ?_, ?_⟩⟩
  · exact h.order.insertOrdered (comparator_objectOrder hlocale) hcompares
  · show insertOrdered _ cache.flows object = insertOrdered _ cache.rows object
    rw [h.flows]
  · intro other hother
    rw [addRow_views, addRow_viewBytes]
    rcases List.mem_cons.mp (hperm.mem_iff.mp hother) with rfl | hother
    · rw [if_pos rfl, if_pos rfl]
      exact ⟨rfl, rfl⟩
    · rw [if_neg (hnew other hother), if_neg (hnew other hother)]
      exact h.views other hother
  · intro id hid
    have hne : id ≠ object.id := fun hsame =>
      hid object (hperm.mem_iff.mpr List.mem_cons_self) hsame.symm
    rw [addRow_views, addRow_viewBytes, if_neg hne, if_neg hne]
    exact h.noViews id fun other hother => hid other (hperm.mem_iff.mpr (List.mem_cons_of_mem _ hother))
  · have hsum := (hperm.map fun object => sizes.view object.row + 8).sum_eq
    rw [List.map_cons, List.sum_cons] at hsum
    show cache.flowBytes + (sizes.view object.row + 8 : ℕ) = _
    rw [h.flowBytes]
    unfold viewTotal
    rw [hsum]
    push_cast
    omega

/-! ### The dead rounds -/

/-- The indexes and the bytes of the dead rounds. -/
structure DeadHolds (sizes : Sizes) (cache : HeadlessCache) (dead : Multiset RowObject) : Prop where
  byFlow : Indexed cache.deadByFlow (fun object => some object.row.rowKey) dead
  byPath : Indexed cache.deadByPath (fun object => truthy object.row.reviewerPath) dead
  byConversation : Indexed cache.deadByConversation (fun object => truthy object.row.reviewerConversationId) dead
  deadBytes : cache.deadBytes = ((dead.map fun object => sizes.row object.row + 8).sum : ℕ)

variable {dead : Multiset RowObject}

theorem DeadHolds.add (h : DeadHolds sizes cache dead) (object : RowObject) :
    DeadHolds sizes (addDeadOwner sizes cache object) (object ::ₘ dead) where
  byFlow := h.byFlow.indexOwner object
  byPath := h.byPath.indexOwner object
  byConversation := h.byConversation.indexOwner object
  deadBytes := by
    show cache.deadBytes + (sizes.row object.row + 8 : ℕ) = _
    rw [h.deadBytes, Multiset.map_cons, Multiset.sum_cons]
    push_cast
    omega

theorem DeadHolds.remove (h : DeadHolds sizes cache dead) {object : RowObject} (hmem : object ∈ dead) :
    DeadHolds sizes (removeDeadOwner sizes cache object) (dead.erase object) where
  byFlow := h.byFlow.unindexOwner object
  byPath := h.byPath.unindexOwner object
  byConversation := h.byConversation.unindexOwner object
  deadBytes := by
    have hsplit := congrArg (fun items => (Multiset.map (fun object => sizes.row object.row + 8) items).sum)
      (Multiset.cons_erase hmem)
    simp only [Multiset.map_cons, Multiset.sum_cons] at hsplit
    show cache.deadBytes - (sizes.row object.row + 8 : ℕ) = _
    rw [h.deadBytes]
    omega

theorem DeadHolds.removeAll (h : DeadHolds sizes cache dead) (objects : List RowObject)
    (hle : (objects : Multiset RowObject) ≤ dead) :
    DeadHolds sizes (objects.foldl (removeDeadOwner sizes) cache) (dead - objects) := by
  induction objects generalizing cache dead with
  | nil =>
    rw [Multiset.coe_nil, tsub_zero]
    exact h
  | cons object rest ih =>
    rw [← Multiset.cons_coe] at hle ⊢
    have hmem : object ∈ dead := Multiset.mem_of_le hle (Multiset.mem_cons_self _ _)
    rw [Multiset.sub_cons]
    apply ih (h.remove hmem)
    rw [← Multiset.cons_le_cons_iff object, Multiset.cons_erase hmem]
    exact hle

/-- What every change of a list keeps. -/
theorem foldl_keeps {σ β γ : Type*} (f : σ → β) (change : σ → γ → σ) (h : ∀ s item, f (change s item) = f s)
    (items : List γ) (s : σ) : f (items.foldl change s) = f s := by
  induction items generalizing s with
  | nil => rfl
  | cons item rest ih => exact (ih _).trans (h s item)

/-! ### The cache -/

/-- The rows of the walk are objects that a query made. -/
def Known (heap : List HeadlessRow) (objects : List RowObject) : Prop :=
  ∀ object ∈ objects, heap[object.id]? = some object.row

theorem Known.same {heap : List HeadlessRow} {objects : List RowObject} (h : Known heap objects) {object : RowObject}
    (hobject : heap[object.id]? = some object.row) : ∀ other ∈ objects, other.id = object.id → other = object := by
  intro other hother hid
  have hrow := h other hother
  rw [hid, hobject] at hrow
  show RowObject.mk other.id other.row = RowObject.mk object.id object.row
  rw [hid, Option.some.inj hrow]

variable (localeCompare sizes) in
structure CacheHolds (heap : List HeadlessRow) (cache : HeadlessCache) (dead : Multiset RowObject) : Prop where
  walk : WalkHolds localeCompare sizes cache
  known : Known heap cache.rows
  byFlow : Indexed cache.rowsByFlow (fun object => some object.row.rowKey) (cache.rows : Multiset RowObject)
  dead : DeadHolds sizes cache dead

variable {heap : List HeadlessRow}

/-- **One pruned row** leaves the walk and joins the dead ones. -/
theorem CacheHolds.pruneRow (hlocale : LocaleOrder localeCompare) (h : CacheHolds localeCompare sizes heap cache dead)
    {object : RowObject} (hobject : heap[object.id]? = some object.row) :
    (History.pruneRow localeCompare sizes cache object).rows = cache.rows.erase object ∧
      CacheHolds localeCompare sizes heap (History.pruneRow localeCompare sizes cache object) (object ::ₘ dead) := by
  obtain ⟨hrows, hwalk⟩ := h.walk.dropRow hlocale (h.known.same hobject)
  have hpruned : (History.pruneRow localeCompare sizes cache object).rows = cache.rows.erase object := hrows
  refine ⟨hpruned, ⟨⟨hwalk.order, hwalk.flows, hwalk.views, hwalk.noViews, hwalk.flowBytes⟩, ?_, ?_, ?_⟩⟩
  · intro other hother
    rw [hpruned] at hother
    exact h.known other (List.mem_of_mem_erase hother)
  · rw [hpruned, ← Multiset.coe_erase]
    exact h.byFlow.unindexOwner object
  · have hdropped : DeadHolds sizes { dropRow localeCompare cache object with
        rowsByFlow := unindexOwner cache.rowsByFlow (some object.row.rowKey) object } dead :=
      ⟨h.dead.byFlow, h.dead.byPath, h.dead.byConversation, h.dead.deadBytes⟩
    exact hdropped.add object

theorem CacheHolds.pruneRows (hlocale : LocaleOrder localeCompare) (h : CacheHolds localeCompare sizes heap cache dead)
    {objects : List RowObject} (hobjects : Known heap objects) :
    (objects.foldl (History.pruneRow localeCompare sizes) cache).rows = cache.rows.diff objects ∧
      CacheHolds localeCompare sizes heap (objects.foldl (History.pruneRow localeCompare sizes) cache)
        ((objects : Multiset RowObject) + dead) := by
  induction objects generalizing cache dead with
  | nil =>
    rw [Multiset.coe_nil, zero_add]
    exact ⟨rfl, h⟩
  | cons object rest ih =>
    obtain ⟨hrows, hholds⟩ := h.pruneRow hlocale (hobjects object List.mem_cons_self)
    obtain ⟨hrest, hall⟩ := ih hholds fun other hother => hobjects other (List.mem_cons_of_mem _ hother)
    rw [List.foldl_cons]
    constructor
    · rw [hrest, hrows, List.diff_cons]
    · rw [Multiset.add_cons, ← Multiset.cons_add, Multiset.cons_coe] at hall
      exact hall

theorem WalkHolds.dropRows (hlocale : LocaleOrder localeCompare) (h : WalkHolds localeCompare sizes cache)
    (objects : List RowObject) (hsame : ∀ object ∈ objects, ∀ other ∈ cache.rows, other.id = object.id → other = object) :
    (objects.foldl (History.dropRow localeCompare) cache).rows = cache.rows.diff objects ∧
      WalkHolds localeCompare sizes (objects.foldl (History.dropRow localeCompare) cache) := by
  induction objects generalizing cache with
  | nil => exact ⟨rfl, h⟩
  | cons object rest ih =>
    obtain ⟨hrows, hholds⟩ := h.dropRow hlocale (hsame object List.mem_cons_self)
    obtain ⟨hrest, hall⟩ := ih hholds (by
      intro later hlater other hother
      rw [hrows] at hother
      exact hsame later (List.mem_cons_of_mem _ hlater) other (List.mem_of_mem_erase hother))
    rw [List.foldl_cons]
    exact ⟨by rw [hrest, hrows, List.diff_cons], hall⟩

theorem WalkHolds.addRows (hlocale : LocaleOrder localeCompare) (h : WalkHolds localeCompare sizes cache)
    (objects : List RowObject) (hnew : ∀ object ∈ objects, ∀ other ∈ cache.rows, other.id ≠ object.id)
    (hcompares : ∀ object ∈ objects, ∀ other ∈ cache.rows,
      objectOrder localeCompare other object < 0 ∨ objectOrder localeCompare object other < 0)
    (hobjects : objects.Pairwise fun a b => a.id ≠ b.id ∧
      (objectOrder localeCompare a b < 0 ∨ objectOrder localeCompare b a < 0)) :
    (objects.foldl (History.addRow localeCompare sizes) cache).rows.Perm (objects ++ cache.rows) ∧
      WalkHolds localeCompare sizes (objects.foldl (History.addRow localeCompare sizes) cache) := by
  induction objects generalizing cache with
  | nil => exact ⟨List.Perm.refl _, h⟩
  | cons object rest ih =>
    obtain ⟨hfirst, hrest⟩ := List.pairwise_cons.mp hobjects
    obtain ⟨hperm, hholds⟩ := h.addRow hlocale (hnew object List.mem_cons_self) (hcompares object List.mem_cons_self)
    obtain ⟨hpermRest, hall⟩ := ih hholds (by
      intro later hlater other hother
      rcases List.mem_cons.mp (hperm.mem_iff.mp hother) with rfl | hother
      · exact (hfirst later hlater).1
      · exact hnew later (List.mem_cons_of_mem _ hlater) other hother) (by
      intro later hlater other hother
      rcases List.mem_cons.mp (hperm.mem_iff.mp hother) with rfl | hother
      · exact (hfirst later hlater).2
      · exact hcompares later (List.mem_cons_of_mem _ hlater) other hother) hrest
    rw [List.foldl_cons]
    refine ⟨hpermRest.trans ?_, hall⟩
    exact ((List.Perm.append_left rest hperm).trans List.perm_middle)

/-! ### Queried objects -/

theorem mem_allocate {rows : List HeadlessRow} {object : RowObject} : object ∈ allocate heap rows ↔
    heap.length ≤ object.id ∧ rows[object.id - heap.length]? = some object.row := by
  unfold allocate
  rw [List.mem_mapIdx]
  constructor
  · rintro ⟨index, hindex, rfl⟩
    dsimp only
    rw [Nat.add_sub_cancel_left, List.getElem?_eq_getElem hindex]
    exact ⟨Nat.le_add_right _ _, rfl⟩
  · rintro ⟨hle, hrow⟩
    obtain ⟨hindex, hvalue⟩ := List.getElem?_eq_some_iff.mp hrow
    refine ⟨object.id - heap.length, hindex, ?_⟩
    show RowObject.mk _ _ = RowObject.mk object.id object.row
    rw [hvalue, Nat.add_sub_cancel' hle]

theorem allocate_rows (rows : List HeadlessRow) : (allocate heap rows).map RowObject.row = rows := by
  unfold allocate
  apply List.ext_getElem
  · simp
  · intro index hleft hright
    simp

variable (heap) in
theorem known_allocate (rows : List HeadlessRow) : Known (heap ++ rows) (allocate heap rows) := by
  intro object hobject
  obtain ⟨hle, hrow⟩ := mem_allocate.mp hobject
  rw [List.getElem?_append_right hle]
  exact hrow

theorem Known.append {objects : List RowObject} (h : Known heap objects) (rows : List HeadlessRow) :
    Known (heap ++ rows) objects := by
  intro object hobject
  have hrow := h object hobject
  rw [List.getElem?_append_left (List.getElem?_eq_some_iff.mp hrow).1]
  exact hrow

theorem Known.id_lt {objects : List RowObject} (h : Known heap objects) {object : RowObject} (hobject : object ∈ objects) :
    object.id < heap.length :=
  (List.getElem?_eq_some_iff.mp (h object hobject)).1

variable (heap) in
/-- Objects of one query are different, and compare as their rows do. -/
theorem allocate_pairwise {R : HeadlessRow → HeadlessRow → Prop} {rows : List HeadlessRow} (h : rows.Pairwise R) :
    (allocate heap rows).Pairwise fun a b => a.id ≠ b.id ∧ R a.row b.row := by
  unfold allocate
  rw [List.pairwise_iff_getElem] at h ⊢
  intro i j hi hj hij
  rw [List.length_mapIdx] at hi hj
  simp only [List.getElem_mapIdx]
  exact ⟨by omega, h i j hi hj hij⟩

/-! ### One changed flow -/

/-- The fields of the walk, and those of the dead rounds. -/
def walkPart (cache : HeadlessCache) := (cache.rows, cache.flows, cache.views, cache.viewBytes, cache.flowBytes)

def deadPart (cache : HeadlessCache) :=
  (cache.deadByFlow, cache.deadByPath, cache.deadByConversation, cache.deadBytes)

theorem WalkHolds.congr {other : HeadlessCache} (h : WalkHolds localeCompare sizes cache)
    (hsame : walkPart other = walkPart cache) : WalkHolds localeCompare sizes other := by
  simp only [walkPart, Prod.mk.injEq] at hsame
  obtain ⟨hrows, hflows, hviews, hviewBytes, hflowBytes⟩ := hsame
  refine ⟨?_, ?_, ?_, ?_, ?_⟩
  · rw [hrows]
    exact h.order
  · rw [hrows, hflows]
    exact h.flows
  · rw [hrows, hviews, hviewBytes]
    exact h.views
  · rw [hrows, hviews, hviewBytes]
    exact h.noViews
  · rw [hrows, hflowBytes]
    exact h.flowBytes

theorem DeadHolds.congr {other : HeadlessCache} (h : DeadHolds sizes cache dead)
    (hsame : deadPart other = deadPart cache) : DeadHolds sizes other dead := by
  simp only [deadPart, Prod.mk.injEq] at hsame
  obtain ⟨hflow, hpath, hconversation, hbytes⟩ := hsame
  exact ⟨hflow ▸ h.byFlow, hpath ▸ h.byPath, hconversation ▸ h.byConversation, hbytes ▸ h.deadBytes⟩

/-- The cache without a flow. -/
def forgetFlow (localeCompare : String → String → Int) (sizes : Sizes) (cache : HeadlessCache) (flowKey : String) :
    HeadlessCache :=
  let dropped := ((cache.rowsByFlow.at? flowKey).getD []).foldl (dropRow localeCompare) cache
  let dropped := { dropped with rowsByFlow := dropped.rowsByFlow.delete flowKey }
  let dropped := ((dropped.deadByFlow.at? flowKey).getD []).foldl (removeDeadOwner sizes) dropped
  { dropped with deadByFlow := dropped.deadByFlow.delete flowKey }

theorem CacheHolds.forgetFlow (hlocale : LocaleOrder localeCompare)
    (h : CacheHolds localeCompare sizes heap cache dead) (flowKey : String) :
    (∀ object, object ∈ (History.forgetFlow localeCompare sizes cache flowKey).rows ↔
        object ∈ cache.rows ∧ object.row.rowKey ≠ flowKey) ∧
      CacheHolds localeCompare sizes heap (History.forgetFlow localeCompare sizes cache flowKey)
        (dead.filter fun object => some object.row.rowKey ≠ some flowKey) := by
  have hprevious : ∀ object, object ∈ (cache.rowsByFlow.at? flowKey).getD [] ↔
      object ∈ cache.rows ∧ object.row.rowKey = flowKey := by
    intro object
    rw [← Multiset.mem_coe, h.byFlow flowKey, Multiset.mem_filter, Multiset.mem_coe, Option.some.injEq]
  obtain ⟨hrows, hwalk⟩ := h.walk.dropRows hlocale ((cache.rowsByFlow.at? flowKey).getD [])
    fun object hobject => h.known.same (h.known object ((hprevious object).mp hobject).1)
  have hkept : (((cache.rowsByFlow.at? flowKey).getD []).foldl (History.dropRow localeCompare) cache).rows =
      cache.rows.filter fun object => some object.row.rowKey ≠ some flowKey := by
    rw [hrows, (h.walk.nodup hlocale).sdiff_eq_filter]
    apply List.filter_congr
    intro object hobject
    simp [hprevious, hobject]
  have hdeadPart := foldl_keeps deadPart (History.dropRow localeCompare) (fun _ _ => rfl)
    ((cache.rowsByFlow.at? flowKey).getD []) cache
  have hindex := foldl_keeps HeadlessCache.rowsByFlow (History.dropRow localeCompare) (fun _ _ => rfl)
    ((cache.rowsByFlow.at? flowKey).getD []) cache
  unfold History.forgetFlow
  dsimp only
  generalize ((cache.rowsByFlow.at? flowKey).getD []).foldl (History.dropRow localeCompare) cache = dropped at *
  have hdead : DeadHolds sizes { dropped with rowsByFlow := dropped.rowsByFlow.delete flowKey } dead :=
    h.dead.congr hdeadPart
  have hobjects := hdead.byFlow flowKey
  have hremoved := hdead.removeAll ((dropped.deadByFlow.at? flowKey).getD []) (by
    rw [hobjects]
    exact Multiset.filter_le _ _)
  rw [hobjects, Multiset.sub_filter_eq_filter_not] at hremoved
  have hwalkPart := foldl_keeps walkPart (removeDeadOwner sizes) (fun _ _ => rfl)
    ((dropped.deadByFlow.at? flowKey).getD []) { dropped with rowsByFlow := dropped.rowsByFlow.delete flowKey }
  have hindexPart := foldl_keeps HeadlessCache.rowsByFlow (removeDeadOwner sizes) (fun _ _ => rfl)
    ((dropped.deadByFlow.at? flowKey).getD []) { dropped with rowsByFlow := dropped.rowsByFlow.delete flowKey }
  generalize ((dropped.deadByFlow.at? flowKey).getD []).foldl (removeDeadOwner sizes)
    { dropped with rowsByFlow := dropped.rowsByFlow.delete flowKey } = freed at *
  have hfreedRows : freed.rows = cache.rows.filter fun object => some object.row.rowKey ≠ some flowKey :=
    (congrArg Prod.fst hwalkPart).trans hkept
  refine ⟨fun object => ?_, ⟨hwalk.congr hwalkPart, ?_, ?_, ⟨?_, hremoved.byPath, hremoved.byConversation,
    hremoved.deadBytes⟩⟩⟩
  · show object ∈ freed.rows ↔ _
    rw [hfreedRows]
    simp
  · intro object hobject
    have hmem : object ∈ freed.rows := hobject
    rw [hfreedRows] at hmem
    exact h.known object (List.mem_filter.mp hmem).1
  · show Indexed freed.rowsByFlow _ (freed.rows : Multiset RowObject)
    rw [hindexPart, hfreedRows]
    show Indexed (dropped.rowsByFlow.delete flowKey) _ _
    rw [hindex, ← Multiset.filter_coe]
    exact h.byFlow.delete flowKey
  · have hdelete := hremoved.byFlow.delete flowKey
    rw [Multiset.filter_filter] at hdelete
    simp only [and_self] at hdelete
    exact hdelete

variable {db : Db}

/-- The rounds of one flow compare. -/
theorem flowRounds_pairwise (hlocale : LocaleOrder localeCompare) (hnodup : ((heldRounds db).map roundKey).Nodup)
    (flowKey : String) : (flowRounds db flowKey).Pairwise fun a b =>
      rowOrder localeCompare a b < 0 ∨ rowOrder localeCompare b a < 0 := by
  have hkeys : ((flowRounds db flowKey).map roundKey).Nodup :=
    (((flowRounds_perm db flowKey).map roundKey).nodup_iff).mpr
      (hnodup.sublist (List.filter_sublist.map roundKey))
  rw [List.Nodup, List.pairwise_map] at hkeys
  apply List.Pairwise.imp_of_mem _ hkeys
  intro a b ha hb hne
  apply rowOrder_total hlocale hne
  intro _
  exact (mem_flowRounds.mp ha).2.trans (mem_flowRounds.mp hb).2.symm

theorem mem_flow_of_allocate {flowKey : String} {object : RowObject}
    (h : object ∈ allocate heap (flowRounds db flowKey)) : object.row ∈ heldRounds db ∧ object.row.rowKey = flowKey := by
  obtain ⟨-, hrow⟩ := mem_allocate.mp h
  exact mem_flowRounds.mp (List.mem_of_getElem? hrow)

/-- **A changed flow** has the rounds of the tables afterwards, and no dead ones. -/
theorem CacheHolds.changeFlow (hlocale : LocaleOrder localeCompare)
    (h : CacheHolds localeCompare sizes heap cache dead) (flowKey : String)
    (hapart : ∀ object ∈ cache.rows, ∀ row ∈ heldRounds db,
      localeCompare object.row.rowKey row.rowKey = 0 → object.row.rowKey = row.rowKey)
    (hnodup : ((heldRounds db).map roundKey).Nodup) :
    (∀ object, object ∈ (History.changeFlow localeCompare sizes db (heap, cache) flowKey).2.rows ↔
        (object ∈ cache.rows ∧ object.row.rowKey ≠ flowKey) ∨ object ∈ allocate heap (flowRounds db flowKey)) ∧
      CacheHolds localeCompare sizes (heap ++ flowRounds db flowKey)
        (History.changeFlow localeCompare sizes db (heap, cache) flowKey).2
        (dead.filter fun object => some object.row.rowKey ≠ some flowKey) := by
  obtain ⟨hmem, hforgot⟩ := h.forgetFlow hlocale flowKey
  have hchange : (History.changeFlow localeCompare sizes db (heap, cache) flowKey).2 =
      if (allocate heap (flowRounds db flowKey)).isEmpty then History.forgetFlow localeCompare sizes cache flowKey
      else (allocate heap (flowRounds db flowKey)).foldl (addRow localeCompare sizes)
        { History.forgetFlow localeCompare sizes cache flowKey with
          rowsByFlow := (History.forgetFlow localeCompare sizes cache flowKey).rowsByFlow.set
            (flowKey, allocate heap (flowRounds db flowKey)) } := rfl
  rw [hchange]
  have hpairwise := allocate_pairwise heap (flowRounds_pairwise hlocale hnodup flowKey)
  have hknown := known_allocate heap (flowRounds db flowKey)
  have hfrom : ∀ object ∈ allocate heap (flowRounds db flowKey), heap.length ≤ object.id ∧
      object.row.rowKey = flowKey ∧ object.row ∈ heldRounds db :=
    fun object hobject =>
      ⟨(mem_allocate.mp hobject).1, (mem_flow_of_allocate hobject).2, (mem_flow_of_allocate hobject).1⟩
  generalize History.forgetFlow localeCompare sizes cache flowKey = forgot at *
  generalize allocate heap (flowRounds db flowKey) = objects at *
  cases hempty : objects.isEmpty with
  | true =>
    rw [if_pos rfl, List.isEmpty_iff.mp hempty]
    refine ⟨fun object => ?_, ⟨hforgot.walk, hforgot.known.append _, hforgot.byFlow, hforgot.dead⟩⟩
    rw [hmem object]
    simp
  | false =>
    rw [if_neg Bool.false_ne_true]
    have hset := hforgot.byFlow.set flowKey objects (by
      intro object hobject hsame
      exact ((hmem object).mp (Multiset.mem_coe.mp hobject)).2 (Option.some.inj hsame))
      fun object hobject => congrArg some (hfrom object hobject).2.1
    have hwalk : WalkHolds localeCompare sizes
        { forgot with rowsByFlow := forgot.rowsByFlow.set (flowKey, objects) } := hforgot.walk.congr rfl
    obtain ⟨hperm, hall⟩ := hwalk.addRows hlocale objects (by
      intro object hobject other hother
      have hless := hforgot.known.id_lt hother
      have hle := (hfrom object hobject).1
      omega) (by
      intro object hobject other hother
      obtain ⟨hin, hne⟩ := (hmem other).mp hother
      obtain ⟨-, hkey, hheld⟩ := hfrom object hobject
      apply rowOrder_total hlocale
      · intro hsame
        exact hne ((congrArg Prod.fst hsame).trans hkey)
      · exact hapart other hin object.row hheld) hpairwise
    have hindex := foldl_keeps HeadlessCache.rowsByFlow (addRow localeCompare sizes) (fun _ _ => rfl)
      objects { forgot with rowsByFlow := forgot.rowsByFlow.set (flowKey, objects) }
    have hdeadPart := foldl_keeps deadPart (addRow localeCompare sizes) (fun _ _ => rfl)
      objects { forgot with rowsByFlow := forgot.rowsByFlow.set (flowKey, objects) }
    generalize objects.foldl (addRow localeCompare sizes)
      { forgot with rowsByFlow := forgot.rowsByFlow.set (flowKey, objects) } = next at *
    refine ⟨fun object => ?_, ⟨hall, fun object hobject => ?_, ?_, hforgot.dead.congr hdeadPart⟩⟩
    · rw [hperm.mem_iff, List.mem_append, or_comm]
      exact or_congr_left (hmem object)
    · rcases List.mem_append.mp (hperm.mem_iff.mp hobject) with hnew | hold
      · exact hknown object hnew
      · exact hforgot.known.append _ object hold
    · rw [hindex, Multiset.coe_eq_coe.mpr hperm, ← Multiset.coe_add]
      exact hset

/-! ### The full query -/

theorem queryOrder_iff {a b : HeadlessRow} : queryOrder a b = true ↔
    a.rowOrder < b.rowOrder ∨ (a.rowOrder = b.rowOrder ∧
      (a.rowKey < b.rowKey ∨ (a.rowKey = b.rowKey ∧ a.round ≤ b.round))) := by
  simp [queryOrder]

theorem fullRounds_sorted (db : Db) : (fullRounds db).Pairwise fun a b => queryOrder a b = true := by
  apply List.pairwise_mergeSort
  · intro a b c hab hbc
    rw [queryOrder_iff] at hab hbc ⊢
    rcases hab with hab | ⟨habOrder, hab⟩
    · rcases hbc with hbc | ⟨hbcOrder, -⟩
      · exact Or.inl (hab.trans hbc)
      · exact Or.inl (hbcOrder ▸ hab)
    · rcases hbc with hbc | ⟨hbcOrder, hbc⟩
      · exact Or.inl (habOrder ▸ hbc)
      · refine Or.inr ⟨habOrder.trans hbcOrder, ?_⟩
        rcases hab with hab | ⟨habKey, hab⟩
        · rcases hbc with hbc | ⟨hbcKey, -⟩
          · exact Or.inl (hab.trans hbc)
          · exact Or.inl (hbcKey ▸ hab)
        · rcases hbc with hbc | ⟨hbcKey, hbc⟩
          · exact Or.inl (habKey ▸ hbc)
          · exact Or.inr ⟨habKey.trans hbcKey, hab.trans hbc⟩
  · intro a b
    rw [Bool.or_eq_true, queryOrder_iff, queryOrder_iff]
    rcases lt_trichotomy a.rowOrder b.rowOrder with hless | hsame | hmore
    · exact Or.inl (Or.inl hless)
    · rcases lt_trichotomy a.rowKey b.rowKey with hkey | hkey | hkey
      · exact Or.inl (Or.inr ⟨hsame, Or.inl hkey⟩)
      · rcases Nat.le_total a.round b.round with hround | hround
        · exact Or.inl (Or.inr ⟨hsame, Or.inr ⟨hkey, hround⟩⟩)
        · exact Or.inr (Or.inr ⟨hsame.symm, Or.inr ⟨hkey.symm, hround⟩⟩)
      · exact Or.inr (Or.inr ⟨hsame.symm, Or.inl hkey⟩)
    · exact Or.inr (Or.inl hmore)

/-- Flows of one order compare as the query orders them. -/
def TiesAgree (localeCompare : String → String → Int) (db : Db) : Prop :=
  ∀ a ∈ heldRounds db, ∀ b ∈ heldRounds db, a.rowOrder = b.rowOrder → a.rowKey < b.rowKey →
    localeCompare a.rowKey b.rowKey < 0

/-- **The order of the query is the order of the comparator**, where ties agree. -/
theorem fullRounds_inOrder (hlocale : LocaleOrder localeCompare) (hties : TiesAgree localeCompare db)
    (hnodup : ((heldRounds db).map roundKey).Nodup) : InOrder (rowOrder localeCompare) (fullRounds db) := by
  have hkeys : ((fullRounds db).map roundKey).Nodup :=
    (((List.mergeSort_perm (heldRounds db) queryOrder).map roundKey).nodup_iff).mpr hnodup
  rw [List.Nodup, List.pairwise_map] at hkeys
  apply List.Pairwise.imp_of_mem _ ((fullRounds_sorted db).and hkeys)
  rintro a b ha hb ⟨horder, hne⟩
  rw [queryOrder_iff] at horder
  rw [rowOrder_neg]
  rcases horder with hless | ⟨hsame, hkey | ⟨hkey, hround⟩⟩
  · exact Or.inl hless
  · exact Or.inr ⟨hsame, Or.inl (hties a (mem_fullRounds.mp ha) b (mem_fullRounds.mp hb) hsame hkey)⟩
  · refine Or.inr ⟨hsame, Or.inr ⟨?_, ?_⟩⟩
    · rw [hkey]
      have hself := hlocale.antisymm b.rowKey b.rowKey
      omega
    · exact lt_of_le_of_ne hround fun hsameRound => hne (Prod.ext hkey hsameRound)

theorem foldl_set_at? {β : Type*} (value : RowObject → β) {objects : List RowObject}
    (hids : objects.Pairwise fun a b => a.id ≠ b.id) (start : Entries ℕ β) :
    (∀ object ∈ objects, (objects.foldl (fun entries object => entries.set (object.id, value object)) start :
        Entries ℕ β).at? object.id = some (value object)) ∧
      ∀ id, (∀ object ∈ objects, object.id ≠ id) →
        (objects.foldl (fun entries object => entries.set (object.id, value object)) start : Entries ℕ β).at? id =
          start.at? id := by
  induction objects generalizing start with
  | nil => exact ⟨(fun _ h => nomatch h), fun _ _ => rfl⟩
  | cons first rest ih =>
    obtain ⟨hfirst, hrest⟩ := List.pairwise_cons.mp hids
    obtain ⟨hset, hkept⟩ := ih hrest (start.set (first.id, value first))
    rw [List.foldl_cons]
    constructor
    · intro object hobject
      rcases List.mem_cons.mp hobject with rfl | hobject
      · rw [hkept object.id fun other hother => (hfirst other hother).symm, Entries.at?_set, if_pos rfl]
      · exact hset object hobject
    · intro id hid
      rw [hkept id fun other hother => hid other (List.mem_cons_of_mem _ hother), Entries.at?_set,
        if_neg (hid first List.mem_cons_self).symm]

theorem foldl_indexOwner {value : RowObject → Option String} {index : Entries String (List RowObject)}
    {items : Multiset RowObject} (h : Indexed index value items) (objects : List RowObject) :
    Indexed (objects.foldl (fun index object => indexOwner index (value object) object) index) value
      ((objects : Multiset RowObject) + items) := by
  induction objects generalizing index items with
  | nil =>
    rw [Multiset.coe_nil, zero_add]
    exact h
  | cons object rest ih =>
    have hrest := ih (h.indexOwner object)
    rw [Multiset.add_cons, ← Multiset.cons_add, Multiset.cons_coe] at hrest
    exact hrest

variable (sizes) in
/-- **A loaded cache** has the rounds of the tables, and no dead ones. -/
theorem cacheHolds_load (hlocale : LocaleOrder localeCompare) (hties : TiesAgree localeCompare db)
    (hnodup : ((heldRounds db).map roundKey).Nodup) (heap : List HeadlessRow) (array : ℕ) :
    CacheHolds localeCompare sizes (heap ++ fullRounds db) (loadCache sizes db heap array) 0 := by
  have horder := allocate_pairwise heap (fullRounds_inOrder hlocale hties hnodup)
  have hids : (allocate heap (fullRounds db)).Pairwise fun a b => a.id ≠ b.id := horder.imp And.left
  have hviews := foldl_set_at? id hids Table.empty
  have hviewBytes := foldl_set_at? (fun object => sizes.view object.row + 8) hids Table.empty
  refine ⟨⟨horder.imp And.right, rfl, fun object hobject => ?_, fun id hid => ?_, ?_⟩, known_allocate heap _, ?_, ?_⟩
  · exact ⟨hviews.1 object hobject, hviewBytes.1 object hobject⟩
  · exact ⟨hviews.2 id hid, hviewBytes.2 id hid⟩
  · show (((viewTotal sizes (allocate heap (fullRounds db)) + 2 : ℕ)) : Int) = _
    push_cast
    rfl
  · have hindex := foldl_indexOwner (indexed_empty fun object => some object.row.rowKey)
      (allocate heap (fullRounds db))
    rw [add_zero] at hindex
    exact hindex
  · exact ⟨indexed_empty _, indexed_empty _, indexed_empty _, rfl⟩

end Delegatus.History
