import Delegatus.JsonText
import Mathlib.Data.List.Basic

/-!
# Decoding UTF-8

`decode` reads bytes as code units, with a replacement character for each sequence that is not
UTF-8, as the decoder of the language does: a state machine that fetches the bytes of a point one by
one.  A newline byte is never part of a longer sequence, so decoding and cutting at newlines commute
(`decode_splitOn`).
-/

namespace Delegatus.Utf8Decoding

open JsonText (Text)

def NEWLINE : UInt8 := 10

def REPLACEMENT : UInt16 := 0xFFFD

/-- A sequence under way: `needed` bytes of the point are missing, the next of them between `lower`
and `upper`. -/
structure Pending where
  point : Nat
  needed : Nat
  lower : Nat
  upper : Nat
  follows : 0x80 ≤ lower
  one : needed = 1 → 2 ≤ point
  two : needed = 2 → 1 ≤ point ∨ 0xA0 ≤ lower
  three : needed = 3 → 1 ≤ point ∨ 0x90 ≤ lower
  few : needed ≤ 3

/-- No sequence is under way. -/
def idle : Pending where
  point := 0
  needed := 0
  lower := 0x80
  upper := 0xBF
  follows := by omega
  one := by omega
  two := by omega
  three := by omega
  few := by omega

/-- The code units of a point. -/
def unitsOf (point : Nat) : Text :=
  if point < 0x10000 then [UInt16.ofNat point]
  else
    [UInt16.ofNat (0xD800 + (point - 0x10000) / 0x400 % 0x400),
      UInt16.ofNat (0xDC00 + (point - 0x10000) % 0x400)]

/-- The first byte of a sequence. -/
def begin (byte : Nat) : Text × Pending :=
  if byte < 0x80 then ([UInt16.ofNat byte], idle)
  else if h : 0xC2 ≤ byte ∧ byte ≤ 0xDF then
    ([], ⟨byte - 0xC0, 1, 0x80, 0xBF, by omega, by omega, by omega, by omega, by omega⟩)
  else if h : 0xE0 ≤ byte ∧ byte ≤ 0xEF then
    ([], ⟨byte - 0xE0, 2, if byte = 0xE0 then 0xA0 else 0x80, if byte = 0xED then 0x9F else 0xBF,
      by split <;> omega, by omega, by split <;> omega, by omega, by omega⟩)
  else if h : 0xF0 ≤ byte ∧ byte ≤ 0xF4 then
    ([], ⟨byte - 0xF0, 3, if byte = 0xF0 then 0x90 else 0x80, if byte = 0xF4 then 0x8F else 0xBF,
      by split <;> omega, by omega, by omega, by split <;> omega, by omega⟩)
  else ([REPLACEMENT], idle)

def feed (pending : Pending) (byte : Nat) : Text × Pending :=
  if pending.needed = 0 then begin byte
  else if h : pending.lower ≤ byte ∧ byte ≤ pending.upper then
    let point := pending.point * 64 + (byte - 0x80)
    if pending.needed = 1 then (unitsOf point, idle)
    else
      ([], ⟨point, pending.needed - 1, 0x80, 0xBF, by omega,
        by
          have := pending.two
          omega,
        by
          have := pending.three
          omega,
        by
          have := pending.few
          omega,
        by
          have := pending.few
          omega⟩)
  else (REPLACEMENT :: (begin byte).1, (begin byte).2)

/-- What is left of a sequence at the end of the bytes. -/
def flush (pending : Pending) : Text := if pending.needed = 0 then [] else [REPLACEMENT]

def run (pending : Pending) : List UInt8 → Text
  | [] => flush pending
  | byte :: bytes => (feed pending byte.toNat).1 ++ run (feed pending byte.toNat).2 bytes

/-- `buffer.toString("utf8")`. -/
def decode (bytes : List UInt8) : Text := run idle bytes

/-! ### Newlines -/

theorem feed_newline (pending : Pending) :
    feed pending NEWLINE.toNat = (flush pending ++ [10], idle) := by
  have hfollows := pending.follows
  unfold feed flush
  have hbegin : begin NEWLINE.toNat = ([10], idle) := rfl
  rw [hbegin]
  split
  · rfl
  · rw [dif_neg]
    · rfl
    · intro h
      have hlt : NEWLINE.toNat < 0x80 := by decide
      omega

theorem run_newline (pending : Pending) (front back : List UInt8) :
    run pending (front ++ NEWLINE :: back) = run pending front ++ 10 :: decode back := by
  induction front generalizing pending with
  | nil =>
    change (feed pending NEWLINE.toNat).1 ++ run (feed pending NEWLINE.toNat).2 back =
      flush pending ++ 10 :: decode back
    rw [feed_newline, List.append_assoc]
    rfl
  | cons byte front ih => rw [List.cons_append, run, run, ih, List.append_assoc]

/-- What is decoded on the two sides of a newline is decoded apart. -/
theorem decode_newline (front back : List UInt8) :
    decode (front ++ NEWLINE :: back) = decode front ++ 10 :: decode back := run_newline idle front back

theorem newline_not_mem_unitsOf {point : Nat} (h : 0x80 ≤ point) : (10 : UInt16) ∉ unitsOf point := by
  unfold unitsOf
  split
  · rename_i hsmall
    rw [List.mem_singleton, ← UInt16.toNat_inj, UInt16.toNat_ofNat']
    have htwo : (2 : Nat) ^ 16 = 0x10000 := rfl
    rw [htwo, Nat.mod_eq_of_lt hsmall]
    have hten : (10 : UInt16).toNat = 10 := rfl
    omega
  · have htwo : (2 : Nat) ^ 16 = 0x10000 := rfl
    have hten : (10 : UInt16).toNat = 10 := rfl
    simp only [List.mem_cons, List.not_mem_nil, or_false, ← UInt16.toNat_inj, UInt16.toNat_ofNat', htwo,
      hten, not_or]
    omega

theorem replacement_ne : (10 : UInt16) ∉ [REPLACEMENT] := by
  decide

theorem newline_not_mem_begin {byte : Nat} (hne : byte ≠ 10) : (10 : UInt16) ∉ (begin byte).1 := by
  unfold begin
  split
  · rename_i hsmall
    rw [List.mem_singleton, ← UInt16.toNat_inj, UInt16.toNat_ofNat']
    have hten : (10 : UInt16).toNat = 10 := rfl
    omega
  · split
    · exact List.not_mem_nil
    · split
      · exact List.not_mem_nil
      · split
        · exact List.not_mem_nil
        · exact replacement_ne

theorem newline_not_mem_feed (pending : Pending) {byte : Nat} (hne : byte ≠ 10) :
    (10 : UInt16) ∉ (feed pending byte).1 := by
  have hfollows := pending.follows
  have hone := pending.one
  unfold feed
  split
  · exact newline_not_mem_begin hne
  · split
    · rename_i hwithin
      by_cases hneeded : pending.needed = 1
      · rw [if_pos hneeded]
        have htwo := hone hneeded
        have hlarge : 0x80 ≤ pending.point * 64 + (byte - 0x80) := by omega
        generalize pending.point * 64 + (byte - 0x80) = point at hlarge
        exact newline_not_mem_unitsOf hlarge
      · rw [if_neg hneeded]
        exact List.not_mem_nil
    · rw [List.mem_cons, not_or]
      exact ⟨by decide, newline_not_mem_begin hne⟩

theorem newline_not_mem_run (pending : Pending) {bytes : List UInt8} (h : NEWLINE ∉ bytes) :
    (10 : UInt16) ∉ run pending bytes := by
  induction bytes generalizing pending with
  | nil =>
    unfold run flush
    split
    · exact List.not_mem_nil
    · decide
  | cons byte bytes ih =>
    rw [List.mem_cons, not_or] at h
    rw [run, List.mem_append, not_or]
    refine ⟨newline_not_mem_feed pending ?_, ih _ h.2⟩
    intro hbyte
    exact h.1 (UInt8.toNat_inj.mp hbyte.symm)

theorem newline_not_mem_decode {bytes : List UInt8} (h : NEWLINE ∉ bytes) :
    (10 : UInt16) ∉ decode bytes := newline_not_mem_run idle h

/-! ### Emptiness -/

theorem begin_ne_nil (byte : Nat) : (begin byte).1 ≠ [] ∨ (begin byte).2.needed ≠ 0 := by
  unfold begin
  split
  · exact Or.inl (List.cons_ne_nil _ _)
  · split
    · exact Or.inr (Nat.succ_ne_zero _)
    · split
      · exact Or.inr (Nat.succ_ne_zero _)
      · split
        · exact Or.inr (Nat.succ_ne_zero _)
        · exact Or.inl (List.cons_ne_nil _ _)

theorem feed_ne_nil (pending : Pending) (byte : Nat) :
    (feed pending byte).1 ≠ [] ∨ (feed pending byte).2.needed ≠ 0 := by
  unfold feed
  split
  · exact begin_ne_nil byte
  · split
    · dsimp only
      split
      · left
        unfold unitsOf
        split
        · exact List.cons_ne_nil _ _
        · exact List.cons_ne_nil _ _
      · right
        dsimp only
        omega
    · exact Or.inl (List.cons_ne_nil _ _)

theorem run_ne_nil {pending : Pending} {bytes : List UInt8} (h : pending.needed ≠ 0 ∨ bytes ≠ []) :
    run pending bytes ≠ [] := by
  induction bytes generalizing pending with
  | nil =>
    rw [run, flush, if_neg (h.resolve_right fun hne => hne rfl)]
    exact List.cons_ne_nil _ _
  | cons byte bytes ih =>
    rw [run]
    intro hnil
    rw [List.append_eq_nil_iff] at hnil
    rcases feed_ne_nil pending byte.toNat with hne | hne
    · exact hne hnil.1
    · exact ih (Or.inl hne) hnil.2

theorem decode_eq_nil {bytes : List UInt8} : decode bytes = [] ↔ bytes = [] := by
  constructor
  · intro h
    by_contra hne
    exact run_ne_nil (Or.inr hne) h
  · intro h
    rw [h]
    rfl

/-! ### Lines -/

/-- Cutting at newlines and decoding commute. -/
theorem decode_splitOn (bytes : List UInt8) :
    (decode bytes).splitOn 10 = (bytes.splitOn NEWLINE).map decode := by
  induction h : bytes.length using Nat.strongRecOn generalizing bytes with
  | ind n ih =>
    by_cases hmem : NEWLINE ∈ bytes
    · obtain ⟨front, back, rfl, hfront⟩ := List.eq_append_cons_of_mem hmem
      rw [List.length_append, List.length_cons] at h
      rw [decode_newline, List.splitOn_append_cons_self_of_not_mem (newline_not_mem_decode hfront),
        List.splitOn_append_cons_self_of_not_mem hfront, List.map_cons,
        ih back.length (by omega) back rfl]
    · rw [List.splitOn_eq_singleton hmem, List.splitOn_eq_singleton (newline_not_mem_decode hmem),
        List.map_cons, List.map_nil]

end Delegatus.Utf8Decoding
