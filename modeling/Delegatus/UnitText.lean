import Delegatus.JsonText

/-!
# White space of strings over code units

`trim` is `String.prototype.trim` on the code units of a string, and `lines` splits at line
breaks. A trimmed text is one whose ends are not white space (`trim_eq_self`, `trim_ends`).
-/

namespace Delegatus.UnitText

open JsonText

/-- White space and line terminators, `\s` of a regular expression. -/
def isWhite (u : UInt16) : Bool :=
  (0x09 ≤ u && u ≤ 0x0D) || u = 0x20 || u = 0xA0 || u = 0x1680 || (0x2000 ≤ u && u ≤ 0x200A) ||
    u = 0x2028 || u = 0x2029 || u = 0x202F || u = 0x205F || u = 0x3000 || u = 0xFEFF

/-- What `.` of a regular expression does not match. -/
def isLineTerminator (u : UInt16) : Bool := u = 0x0A || u = 0x0D || u = 0x2028 || u = 0x2029

def trimEnd (text : Text) : Text := (text.reverse.dropWhile isWhite).reverse

/-- `text.trim()`. -/
def trim (text : Text) : Text := trimEnd (text.dropWhile isWhite)

/-- A line without a carriage return at its end. -/
def dropCr (line : Text) : Text := if line.getLast? = some 13 then line.dropLast else line

/-- `text.split(/\r?\n/)`: the last line has no line break after it. -/
def lines (text : Text) : List Text :=
  let raw := text.splitOn 10
  raw.dropLast.map dropCr ++ raw.getLast?.toList

/-! ### Trimmed texts -/

/-- Neither end is white space. -/
structure Trimmed (text : Text) : Prop where
  head : ∀ u, text.head? = some u → isWhite u = false
  last : ∀ u, text.getLast? = some u → isWhite u = false

theorem dropWhile_of_head {text : Text} (h : ∀ u, text.head? = some u → isWhite u = false) :
    text.dropWhile isWhite = text := by
  cases text with
  | nil => rfl
  | cons u rest => simp [h u rfl]

theorem head_dropWhile {text : Text} {u : UInt16} (h : (text.dropWhile isWhite).head? = some u) :
    isWhite u = false := by
  have hnot := List.head?_dropWhile_not isWhite text
  rw [h] at hnot
  exact hnot

theorem trim_eq_self {text : Text} (h : Trimmed text) : trim text = text := by
  have hlast : text.reverse.dropWhile isWhite = text.reverse := by
    apply dropWhile_of_head
    intro u hu
    exact h.last u (by rwa [List.head?_reverse] at hu)
  unfold trim trimEnd
  rw [dropWhile_of_head h.head, hlast, List.reverse_reverse]

theorem trimmed_trim (text : Text) : Trimmed (trim text) := by
  refine ⟨?_, ?_⟩
  · intro u hu
    have hsuffix : trim text <+: text.dropWhile isWhite := by
      have hdrop : (text.dropWhile isWhite).reverse.dropWhile isWhite <:+
          (text.dropWhile isWhite).reverse := List.dropWhile_suffix _
      have hprefix := List.reverse_prefix.mpr hdrop
      rwa [List.reverse_reverse] at hprefix
    obtain ⟨rest, hrest⟩ := hsuffix
    have hhead : (text.dropWhile isWhite).head? = some u := by
      rw [← hrest, List.head?_append, hu]
      rfl
    exact head_dropWhile hhead
  · intro u hu
    unfold trim trimEnd at hu
    rw [List.getLast?_reverse] at hu
    exact head_dropWhile hu

@[simp] theorem trim_trim (text : Text) : trim (trim text) = trim text :=
  trim_eq_self (trimmed_trim text)

end Delegatus.UnitText
