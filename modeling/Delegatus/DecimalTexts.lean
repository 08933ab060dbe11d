import Delegatus.JsonText
import Mathlib.Data.Nat.Digits.Lemmas

/-!
# Decimal texts of a fixed width

`decimal` writes a number, `padStart` fills it with zeros, and `value` reads a text of digits.
Texts of digits of one length stand in the order of their values (`lt_iff_value_lt`), and texts
that start with fields of one length are compared field by field (`append_lt_append_iff`).
-/

namespace Delegatus.DecimalTexts

open JsonText (Text isDigit)

def digit (n : Nat) : UInt16 := UInt16.ofNat (48 + n)

def digitValue (u : UInt16) : Nat := u.toNat - 48

/-- The number that a text of digits writes. -/
def value : Text → Nat
  | [] => 0
  | u :: rest => digitValue u * 10 ^ rest.length + value rest

/-- `String(n)`. -/
def decimal (n : Nat) : Text := if n = 0 then [48] else ((Nat.digits 10 n).map digit).reverse

/-- `text.padStart(width, "0")`. -/
def padStart (width : Nat) (text : Text) : Text := List.replicate (width - text.length) 48 ++ text

/-- A text of digits only. -/
def Digits (text : Text) : Prop := ∀ u ∈ text, isDigit u = true

variable {a b text x y : Text} {n width : Nat}

/-! ### Comparison -/

theorem append_lt_append_iff (h : a.length = b.length) : a ++ x < b ++ y ↔ a < b ∨ a = b ∧ x < y := by
  induction a generalizing b with
  | nil =>
    obtain rfl := List.length_eq_zero_iff.mp h.symm
    simp
  | cons u a ih =>
    cases b with
    | nil => cases h
    | cons v b =>
      rw [List.cons_append, List.cons_append, List.cons_lt_cons_iff, List.cons_lt_cons_iff,
        ih (Nat.succ.inj h), List.cons.injEq]
      tauto

theorem digit_bounds {u : UInt16} (h : isDigit u = true) : 48 ≤ u.toNat ∧ u.toNat ≤ 57 := by
  unfold isDigit at h
  rw [Bool.and_eq_true, decide_eq_true_iff, decide_eq_true_iff] at h
  exact ⟨UInt16.le_iff_toNat_le.mp h.1, UInt16.le_iff_toNat_le.mp h.2⟩

theorem value_lt (h : Digits text) : value text < 10 ^ text.length := by
  induction text with
  | nil => exact Nat.one_pos
  | cons u rest ih =>
    obtain ⟨hu, hrest⟩ := List.forall_mem_cons.mp h
    have hbounds := digit_bounds hu
    have hvalue := ih hrest
    have hdigit : digitValue u ≤ 9 := by
      unfold digitValue
      omega
    have hmul := Nat.mul_le_mul_right (10 ^ rest.length) hdigit
    rw [value, List.length_cons, pow_succ]
    omega

/-- **Texts of digits of one length stand in the order of their values.** -/
theorem lt_iff_value_lt (ha : Digits a) (hb : Digits b) (h : a.length = b.length) :
    a < b ↔ value a < value b := by
  induction a generalizing b with
  | nil =>
    obtain rfl := List.length_eq_zero_iff.mp h.symm
    simp [value]
  | cons u a ih =>
    cases b with
    | nil => cases h
    | cons v b =>
      obtain ⟨hu, ha⟩ := List.forall_mem_cons.mp ha
      obtain ⟨hv, hb⟩ := List.forall_mem_cons.mp hb
      have hlength : a.length = b.length := Nat.succ.inj h
      have hua := value_lt ha
      have hvb := value_lt hb
      have hubounds := digit_bounds hu
      have hvbounds := digit_bounds hv
      rw [List.cons_lt_cons_iff, ih ha hb hlength, value, value, UInt16.lt_iff_toNat_lt, ← UInt16.toNat_inj]
      rw [hlength] at hua ⊢
      unfold digitValue
      rcases Nat.lt_trichotomy u.toNat v.toNat with hlt | heq | hgt
      · have hmul := Nat.mul_le_mul_right (10 ^ b.length) (show u.toNat - 48 + 1 ≤ v.toNat - 48 by omega)
        rw [Nat.succ_mul] at hmul
        constructor
        · intro _
          omega
        · exact fun _ => Or.inl hlt
      · rw [heq]
        constructor
        · rintro (hlt | ⟨-, hlt⟩)
          · exact absurd hlt (Nat.lt_irrefl _)
          · omega
        · intro hlt
          exact Or.inr ⟨Eq.refl _, by omega⟩
      · have hmul := Nat.mul_le_mul_right (10 ^ b.length) (show v.toNat - 48 + 1 ≤ u.toNat - 48 by omega)
        rw [Nat.succ_mul] at hmul
        constructor
        · rintro (hlt | ⟨heq, -⟩) <;> omega
        · intro hlt
          omega

theorem value_inj (ha : Digits a) (hb : Digits b) (h : a.length = b.length) (heq : value a = value b) :
    a = b := by
  have hab := (not_congr (lt_iff_value_lt ha hb h)).mpr (by omega)
  have hba := (not_congr (lt_iff_value_lt hb ha h.symm)).mpr (by omega)
  exact List.le_antisymm (List.not_lt.mp hba) (List.not_lt.mp hab)

/-! ### Writing -/

theorem value_append (a b : Text) : value (a ++ b) = value a * 10 ^ b.length + value b := by
  induction a with
  | nil => simp [value]
  | cons u a ih =>
    rw [List.cons_append, value, value, ih, List.length_append, pow_add]
    ring

theorem digitValue_digit (h : n < 10) : digitValue (digit n) = n := by
  revert n
  decide

theorem isDigit_digit (h : n < 10) : isDigit (digit n) = true := by
  revert n
  decide

theorem value_reverse_digits {digits : List Nat} (h : ∀ d ∈ digits, d < 10) :
    value (digits.map digit).reverse = Nat.ofDigits 10 digits := by
  induction digits with
  | nil => exact rfl
  | cons d digits ih =>
    obtain ⟨hd, hdigits⟩ := List.forall_mem_cons.mp h
    rw [List.map_cons, List.reverse_cons, value_append, ih hdigits, Nat.ofDigits_cons]
    simp only [value, List.length_singleton, List.length_nil, digitValue_digit hd]
    ring

theorem value_decimal (n : Nat) : value (decimal n) = n := by
  unfold decimal
  split
  · next hzero =>
    rw [hzero]
    decide
  · rw [value_reverse_digits fun d hd => Nat.digits_lt_base (by decide) hd, Nat.ofDigits_digits]

theorem digits_decimal (n : Nat) : Digits (decimal n) := by
  unfold decimal
  split
  · exact List.forall_mem_singleton.mpr (by decide)
  · intro u hu
    obtain ⟨d, hd, rfl⟩ := List.mem_map.mp (List.mem_reverse.mp hu)
    exact isDigit_digit (Nat.digits_lt_base (by decide) hd)

theorem length_decimal_le_iff (hwidth : 0 < width) : (decimal n).length ≤ width ↔ n < 10 ^ width := by
  unfold decimal
  split
  · next hzero =>
    rw [hzero]
    exact iff_of_true hwidth (Nat.pow_pos (by decide))
  · rw [List.length_reverse, List.length_map, Nat.digits_length_le_iff (by decide)]

theorem value_padStart (width : Nat) (text : Text) : value (padStart width text) = value text := by
  have hzeros : ∀ k, value (List.replicate k 48) = 0 := by
    intro k
    induction k with
    | zero => exact rfl
    | succ k ih =>
      rw [List.replicate_succ, value, ih]
      simp [digitValue]
  rw [padStart, value_append, hzeros]
  omega

theorem digits_padStart (h : Digits text) : Digits (padStart width text) := by
  intro u hu
  rcases List.mem_append.mp hu with hu | hu
  · rw [List.eq_of_mem_replicate hu]
    decide
  · exact h u hu

theorem length_padStart (width : Nat) (text : Text) :
    (padStart width text).length = max width text.length := by
  rw [padStart, List.length_append, List.length_replicate]
  omega

/-- A padded number fits its width, or it is too large. -/
theorem length_padded_iff (hwidth : 0 < width) :
    (padStart width (decimal n)).length = width ↔ n < 10 ^ width := by
  rw [length_padStart, ← length_decimal_le_iff hwidth]
  omega

end Delegatus.DecimalTexts
