import Mathlib.Data.Prod.Lex
import Mathlib.Data.String.Basic
import Mathlib.Order.Lattice

/-!
# The clock of linked boards

A stamp is the three fixed-width fields of `<ms, 13 digits>.<counter, 3 digits>.<prefix>`;
the string order of such stamps is the lexicographic order of the fields, which is the
order here.  `nextStamp` mints a stamp above a watermark whatever the wall clock did, and
`derivedStamp` is what a row reads that was never stamped.
-/

namespace Delegatus.LinkStamps

/-- A stamp: milliseconds, a counter inside the millisecond, and the install's prefix. -/
@[ext] structure Stamp where
  ms : Nat
  counter : Nat
  pfx : String
  deriving DecidableEq

namespace Stamp

/-- The fields in the order they are compared. -/
def key (stamp : Stamp) : Nat ×ₗ Nat ×ₗ String :=
  toLex (stamp.ms, toLex (stamp.counter, stamp.pfx))

theorem key_injective : Function.Injective key := by
  intro a b h
  have h' : (a.ms, a.counter, a.pfx) = (b.ms, b.counter, b.pfx) := h
  simp only [Prod.mk.injEq] at h'
  exact Stamp.ext h'.1 h'.2.1 h'.2.2

instance : LinearOrder Stamp := LinearOrder.lift' key key_injective

theorem lt_of_ms_lt {a b : Stamp} (h : a.ms < b.ms) : a < b := by
  show key a < key b
  exact Prod.Lex.toLex_lt_toLex.mpr (Or.inl h)

theorem lt_of_counter_lt {a b : Stamp} (hms : a.ms = b.ms) (h : a.counter < b.counter) :
    a < b := by
  show key a < key b
  exact Prod.Lex.toLex_lt_toLex.mpr (Or.inr ⟨hms, Prod.Lex.toLex_lt_toLex.mpr (Or.inl h)⟩)

end Stamp

/-- An instant as a row stores it: its text, and `Date.parse` of it when that is a finite
number. -/
structure Instant where
  text : String
  ms : Option Int
  deriving DecidableEq

/-- The last millisecond that fits thirteen digits. -/
def MAX_STAMP_MS : Int := 9999999999999

/-- The next stamp above `watermark`. -/
def nextStamp (watermark : Option Stamp) (now : Int) (pfx : String) : Stamp :=
  let wall := (max 0 (min now MAX_STAMP_MS)).toNat
  match watermark with
  | none => ⟨wall, 0, pfx⟩
  | some mark =>
    if wall > mark.ms then ⟨wall, 0, pfx⟩
    else if mark.counter < 999 then ⟨mark.ms, mark.counter + 1, pfx⟩
    else ⟨mark.ms + 1, 0, pfx⟩

/-- A stamp for a row that was never stamped: its time, counter 0, this install. -/
def derivedStamp (updatedAt : Instant) (pfx : String) : Stamp :=
  match updatedAt.ms with
  | some ms => ⟨if ms > 0 then (min ms MAX_STAMP_MS).toNat else 0, 0, pfx⟩
  | none => ⟨0, 0, pfx⟩

/-- The larger of two stamps, where there are two. -/
def maxStamp : Option Stamp → Option Stamp → Option Stamp
  | none, right => right
  | some left, none => some left
  | some left, some right => if left > right then some left else some right

theorem nextStamp_pfx (watermark : Option Stamp) (now : Int) (pfx : String) :
    (nextStamp watermark now pfx).pfx = pfx := by
  cases watermark with
  | none => rfl
  | some mark =>
    unfold nextStamp
    dsimp only
    split
    · rfl
    · split <;> rfl

/-- **A minted stamp is above its watermark.** -/
theorem lt_nextStamp (mark : Stamp) (now : Int) (pfx : String) :
    mark < nextStamp (some mark) now pfx := by
  unfold nextStamp
  dsimp only
  by_cases hwall : (max 0 (min now MAX_STAMP_MS)).toNat > mark.ms
  · rw [if_pos hwall]
    exact Stamp.lt_of_ms_lt hwall
  · rw [if_neg hwall]
    by_cases hcounter : mark.counter < 999
    · rw [if_pos hcounter]
      exact Stamp.lt_of_counter_lt rfl (Nat.lt_succ_self _)
    · rw [if_neg hcounter]
      exact Stamp.lt_of_ms_lt (Nat.lt_succ_self _)

/-- A stamp is at most the watermark, where there is one. -/
def AtMost (stamp : Stamp) (watermark : Option Stamp) : Prop :=
  ∃ mark, watermark = some mark ∧ stamp ≤ mark

theorem atMost_some {stamp mark : Stamp} (h : stamp ≤ mark) : AtMost stamp (some mark) :=
  ⟨mark, rfl, h⟩

theorem atMost_maxStamp_left {stamp : Stamp} {left right : Option Stamp}
    (h : AtMost stamp left) : AtMost stamp (maxStamp left right) := by
  obtain ⟨mark, rfl, hle⟩ := h
  cases right with
  | none => exact atMost_some hle
  | some right =>
    simp only [maxStamp]
    by_cases hgt : mark > right
    · rw [if_pos hgt]
      exact atMost_some hle
    · rw [if_neg hgt]
      exact atMost_some (hle.trans (not_lt.mp hgt))

theorem atMost_maxStamp_right {stamp : Stamp} {left right : Option Stamp}
    (h : AtMost stamp right) : AtMost stamp (maxStamp left right) := by
  obtain ⟨mark, rfl, hle⟩ := h
  cases left with
  | none => exact atMost_some hle
  | some left =>
    simp only [maxStamp]
    by_cases hgt : left > mark
    · rw [if_pos hgt]
      exact atMost_some (hle.trans hgt.le)
    · rw [if_neg hgt]
      exact atMost_some hle

/-- A stamp minted above a watermark is above everything the watermark covers. -/
theorem AtMost.lt_nextStamp {stamp : Stamp} {watermark : Option Stamp}
    (h : AtMost stamp watermark) (now : Int) (pfx : String) :
    stamp < nextStamp watermark now pfx := by
  obtain ⟨mark, rfl, hle⟩ := h
  exact hle.trans_lt (LinkStamps.lt_nextStamp mark now pfx)

end Delegatus.LinkStamps
