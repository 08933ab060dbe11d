import Delegatus.LastWriter

/-!
# Copies under authored stamps

Sites hold copies of items and send each other rows.  A copy and a row give every part of
the item a register: a value under a stamp.  `author` says which site minted a stamp.

`Sound` holds two facts together: any two carriers of a part with equal stamps are equal,
and no stamp that a site minted is larger than the one its own copy holds.  The second is
what makes a newly minted stamp new; it is the invariant the first needs.
-/

namespace Delegatus.StampedCopies

open LastWriter

variable {S ι γ σ β : Type*}

/-- What the sites hold, have sent, and have buried for good. -/
structure Copies (S ι γ σ β : Type*) where
  held : S → ι → Option (γ → Register σ β)
  sent : S → ι → (γ → Register σ β) → Prop
  buried : S → ι → Prop

/-- A copy or a sent row that carries a register for a part. -/
inductive Carrier (c : Copies S ι γ σ β) (id : ι) (part : γ) : Register σ β → Prop where
  | copy (site : S) (item : γ → Register σ β) (h : c.held site id = some item) :
      Carrier c id part (item part)
  | row (site : S) (item : γ → Register σ β) (h : c.sent site id item) :
      Carrier c id part (item part)

/-- A carrier other than the copy of `site`. -/
inductive Elsewhere (c : Copies S ι γ σ β) (site : S) (id : ι) (part : γ) :
    Register σ β → Prop where
  | copy (other : S) (item : γ → Register σ β) (hother : other ≠ site)
      (h : c.held other id = some item) : Elsewhere c site id part (item part)
  | row (other : S) (item : γ → Register σ β) (h : c.sent other id item) :
      Elsewhere c site id part (item part)

/-- Nobody but `site` has seen the item. -/
def Unseen (c : Copies S ι γ σ β) (site : S) (id : ι) : Prop :=
  (∀ other item, ¬ c.sent other id item) ∧ ∀ other, other ≠ site → c.held other id = none

variable [LinearOrder σ]

/-- Equal stamps mean equal values, and a site's own stamps do not outrun its copy. -/
structure Sound (author : σ → Option S) (c : Copies S ι γ σ β) : Prop where
  agree : ∀ id part a b, Carrier c id part a → Carrier c id part b → a.stamp = b.stamp → a = b
  authored : ∀ site id part a, Carrier c id part a → author a.stamp = some site →
    c.buried site id ∨ ∃ item, c.held site id = some item ∧ a.stamp ≤ (item part).stamp
  exclusive : ∀ site id, c.buried site id → c.held site id = none

/-- What a move of `site` makes of a part that its copy holds. -/
inductive PartMove (author : σ → Option S) (c : Copies S ι γ σ β) (site : S) (id : ι) (part : γ)
    (old : Register σ β) : Register σ β → Prop where
  | same : PartMove author c site id part old old
  /-- A row that somebody sent is newer. -/
  | taken (other : S) (row : γ → Register σ β) (hsent : c.sent other id row)
      (hlt : old.stamp < (row part).stamp) : PartMove author c site id part old (row part)
  /-- The site minted a newer stamp. -/
  | minted (new : Register σ β) (hauthor : author new.stamp = some site)
      (hlt : old.stamp < new.stamp) : PartMove author c site id part old new

theorem PartMove.le {author : σ → Option S} {c : Copies S ι γ σ β} {site : S} {id : ι} {part : γ}
    {old new : Register σ β} (h : PartMove author c site id part old new) :
    old.stamp ≤ new.stamp := by
  cases h with
  | same => exact le_refl _
  | taken _ _ _ hlt => exact hlt.le
  | minted _ _ hlt => exact hlt.le

/-- What a move of `site` makes of its copy of an item; `buried` says whether the item is
buried after it. -/
inductive ItemMove (author : σ → Option S) (c : Copies S ι γ σ β) (site : S) (id : ι)
    (buried : Prop) : Option (γ → Register σ β) → Option (γ → Register σ β) → Prop where
  | absent : ItemMove author c site id buried none none
  | came (new : γ → Register σ β) (hfree : ¬ c.buried site id)
      (hnew : ∀ part, (∃ other row, c.sent other id row ∧ row part = new part) ∨
        author (new part).stamp = some site) :
      ItemMove author c site id buried none (some new)
  | kept (old new : γ → Register σ β)
      (hparts : ∀ part, PartMove author c site id part (old part) (new part)) :
      ItemMove author c site id buried (some old) (some new)
  /-- Nobody else has seen the item, and no stamp of another site comes in. -/
  | unseen (old new : γ → Register σ β) (hunseen : Unseen c site id)
      (hparts : ∀ part, (new part).stamp = (old part).stamp ∨
        author (new part).stamp = some site) :
      ItemMove author c site id buried (some old) (some new)
  | removed (old : γ → Register σ β) (h : buried ∨ Unseen c site id) :
      ItemMove author c site id buried (some old) none

/-- A move of one site: it sends nothing and touches no other site. -/
structure SiteMove (author : σ → Option S) (site : S) (c c' : Copies S ι γ σ β) : Prop where
  sent : c'.sent = c.sent
  others : ∀ other, other ≠ site → c'.held other = c.held other ∧ c'.buried other = c.buried other
  buried : ∀ id, c.buried site id → c'.buried site id
  exclusive : ∀ id, c'.buried site id → c'.held site id = none
  items : ∀ id, ItemMove author c site id (c'.buried site id) (c.held site id) (c'.held site id)

theorem SiteMove.elsewhere {author : σ → Option S} {site : S} {c c' : Copies S ι γ σ β}
    (h : SiteMove author site c c') {id : ι} {part : γ} {a : Register σ β}
    (ha : Elsewhere c' site id part a) : Elsewhere c site id part a := by
  cases ha with
  | copy other item hother hheld =>
    rw [(h.others other hother).1] at hheld
    exact .copy other item hother hheld
  | row other item hsent =>
    rw [h.sent] at hsent
    exact .row other item hsent

/-- **Sending a copy as it is held keeps the copies sound.** -/
theorem Sound.sends {author : σ → Option S} {c c' : Copies S ι γ σ β} (h : Sound author c)
    (site : S) (hheld : c'.held = c.held) (hburied : c'.buried = c.buried)
    (hsent : ∀ other id row, c'.sent other id row → c.sent other id row ∨
      c.held site id = some row) : Sound author c' := by
  have hcarrier : ∀ id part a, Carrier c' id part a → Carrier c id part a := by
    intro id part a ha
    cases ha with
    | copy other item hitem => exact .copy other item (hheld ▸ hitem)
    | row other item hrow =>
      rcases hsent other id item hrow with hrow | hcopy
      · exact .row other item hrow
      · exact .copy site item hcopy
  refine ⟨?_, ?_, ?_⟩
  · intro id part a b ha hb
    exact h.agree id part a b (hcarrier id part a ha) (hcarrier id part b hb)
  · intro owner id part a ha
    rw [hheld, hburied]
    exact h.authored owner id part a (hcarrier id part a ha)
  · rw [hheld, hburied]
    exact h.exclusive

end Delegatus.StampedCopies
