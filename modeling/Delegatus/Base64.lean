import Delegatus.JsonText
import Mathlib.Data.List.DropRight

/-!
# Base64

Texts of sextets: three bytes are four digits, and one or two bytes at the end are two or three, which
`btoa` fills with `=`.  `atob` takes the padding off and drops the bits that make no whole byte; white space,
which it also skips, is left out.  Bytes come back from their digits (`ofDigits_toDigits`).
-/

namespace Delegatus.Base64

open JsonText

/-- The digit of a sextet. -/
def digit (n : ℕ) : UInt16 :=
  UInt16.ofNat (if n < 26 then 65 + n else if n < 52 then 71 + n else if n < 62 then n - 4 else if n = 62 then 43 else 47)

def sextet (u : UInt16) : Option ℕ :=
  if 65 ≤ u ∧ u ≤ 90 then some (u.toNat - 65)
  else if 97 ≤ u ∧ u ≤ 122 then some (u.toNat - 71)
  else if 48 ≤ u ∧ u ≤ 57 then some (u.toNat + 4)
  else if u = 43 then some 62
  else if u = 47 then some 63
  else none

def toDigits : List UInt8 → Text
  | [] => []
  | [a] => [digit (a.toNat / 4), digit (a.toNat % 4 * 16)]
  | [a, b] => [digit (a.toNat / 4), digit (a.toNat % 4 * 16 + b.toNat / 16), digit (b.toNat % 16 * 4)]
  | a :: b :: c :: rest =>
    digit (a.toNat / 4) :: digit (a.toNat % 4 * 16 + b.toNat / 16) :: digit (b.toNat % 16 * 4 + c.toNat / 64) ::
      digit (c.toNat % 64) :: toDigits rest

def ofDigits : Text → Option (List UInt8)
  | [] => some []
  | [_] => none
  | [w, x] => do
    let a ← sextet w
    let b ← sextet x
    return [UInt8.ofNat (a * 4 + b / 16)]
  | [w, x, y] => do
    let a ← sextet w
    let b ← sextet x
    let c ← sextet y
    return [UInt8.ofNat (a * 4 + b / 16), UInt8.ofNat (b % 16 * 16 + c / 4)]
  | w :: x :: y :: z :: rest => do
    let a ← sextet w
    let b ← sextet x
    let c ← sextet y
    let d ← sextet z
    let others ← ofDigits rest
    return UInt8.ofNat (a * 4 + b / 16) :: UInt8.ofNat (b % 16 * 16 + c / 4) :: UInt8.ofNat (c % 4 * 64 + d) :: others

def PAD : UInt16 := 61

def btoa (bytes : List UInt8) : Text := toDigits bytes ++ List.replicate ((3 - bytes.length % 3) % 3) PAD

/-- Up to two signs of padding, of a text of whole groups. -/
def unpadded (text : Text) : Text :=
  if text.length % 4 ≠ 0 then text
  else if text.getLast? ≠ some PAD then text
  else if text.dropLast.getLast? ≠ some PAD then text.dropLast
  else text.dropLast.dropLast

def atob (text : Text) : Option (List UInt8) := ofDigits (unpadded text)

/-! ### Round trips -/

theorem sextet_digit : ∀ n < 64, sextet (digit n) = some n := by decide

theorem ofDigits_toDigits (bytes : List UInt8) : ofDigits (toDigits bytes) = some bytes := by
  induction bytes using toDigits.induct with
  | case1 => exact rfl
  | case2 a =>
    have ha := a.toNat_lt
    simp only [toDigits, ofDigits]
    rw [sextet_digit _ (by omega), sextet_digit _ (by omega)]
    simp only [bind, Option.bind, pure, Option.some.injEq, List.cons.injEq, and_true]
    apply UInt8.toNat_inj.mp
    rw [UInt8.toNat_ofNat']
    omega
  | case3 a b =>
    have ha := a.toNat_lt
    have hb := b.toNat_lt
    simp only [toDigits, ofDigits]
    rw [sextet_digit _ (by omega), sextet_digit _ (by omega), sextet_digit _ (by omega)]
    simp only [bind, Option.bind, pure, Option.some.injEq, List.cons.injEq, and_true]
    constructor <;> apply UInt8.toNat_inj.mp <;> rw [UInt8.toNat_ofNat'] <;> omega
  | case4 a b c rest ih =>
    have ha := a.toNat_lt
    have hb := b.toNat_lt
    have hc := c.toNat_lt
    simp only [toDigits, ofDigits]
    rw [sextet_digit _ (by omega), sextet_digit _ (by omega), sextet_digit _ (by omega), sextet_digit _ (by omega), ih]
    simp only [bind, Option.bind, pure, Option.some.injEq, List.cons.injEq, and_true]
    refine ⟨?_, ?_, ?_⟩ <;> apply UInt8.toNat_inj.mp <;> rw [UInt8.toNat_ofNat'] <;> omega

theorem toDigits_all (bytes : List UInt8) : ∀ u ∈ toDigits bytes, ∃ n < 64, u = digit n := by
  induction bytes using toDigits.induct with
  | case1 => exact fun _ h => absurd h List.not_mem_nil
  | case2 a =>
    have ha := a.toNat_lt
    simp only [toDigits, List.forall_mem_cons, List.not_mem_nil, false_implies, implies_true, and_true]
    exact ⟨⟨_, by omega, rfl⟩, ⟨_, by omega, rfl⟩⟩
  | case3 a b =>
    have ha := a.toNat_lt
    have hb := b.toNat_lt
    simp only [toDigits, List.forall_mem_cons, List.not_mem_nil, false_implies, implies_true, and_true]
    exact ⟨⟨_, by omega, rfl⟩, ⟨_, by omega, rfl⟩, ⟨_, by omega, rfl⟩⟩
  | case4 a b c rest ih =>
    have ha := a.toNat_lt
    have hb := b.toNat_lt
    have hc := c.toNat_lt
    simp only [toDigits, List.forall_mem_cons]
    exact ⟨⟨_, by omega, rfl⟩, ⟨_, by omega, rfl⟩, ⟨_, by omega, rfl⟩, ⟨_, by omega, rfl⟩, ih⟩

theorem length_toDigits (bytes : List UInt8) : (toDigits bytes).length = (bytes.length * 4 + 2) / 3 := by
  induction bytes using toDigits.induct with
  | case1 => exact rfl
  | case2 a => simp [toDigits]
  | case3 a b => simp [toDigits]
  | case4 a b c rest ih =>
    simp only [toDigits, List.length_cons, ih]
    omega

theorem pad_not_mem (bytes : List UInt8) : PAD ∉ toDigits bytes := by
  have hdigit : ∀ n < 64, PAD ≠ digit n := by decide
  intro hmem
  obtain ⟨n, hn, heq⟩ := toDigits_all bytes PAD hmem
  exact hdigit n hn heq

/-- The padding comes off digits again. -/
theorem rdropWhile_btoa (bytes : List UInt8) : (btoa bytes).rdropWhile (· = PAD) = toDigits bytes := by
  have hself : (toDigits bytes).rdropWhile (· = PAD) = toDigits bytes := by
    rw [List.rdropWhile_eq_self_iff]
    intro hne heq
    exact pad_not_mem bytes (of_decide_eq_true heq ▸ List.getLast_mem hne)
  unfold btoa
  generalize (3 - bytes.length % 3) % 3 = n
  induction n with
  | zero => rw [List.replicate_zero, List.append_nil, hself]
  | succ n ih => rw [List.replicate_succ', ← List.append_assoc, List.rdropWhile_concat, if_pos (by decide), ih]

/-- One sign of padding after digits that lack it. -/
theorem atob_pad {bytes : List UInt8} (hlength : (toDigits bytes).length % 4 = 3) :
    atob (toDigits bytes ++ [PAD]) = some bytes := by
  have hlast : (toDigits bytes).getLast? ≠ some PAD := fun heq => pad_not_mem bytes (List.mem_of_getLast? heq)
  unfold atob unpadded
  rw [if_neg (by rw [List.length_append, List.length_singleton]; omega),
    if_neg (by rw [List.getLast?_concat]; exact not_not.mpr rfl), List.dropLast_concat, if_pos hlast, ofDigits_toDigits]

end Delegatus.Base64
