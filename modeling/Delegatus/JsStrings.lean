import Mathlib.Data.String.Basic
import Mathlib.Data.List.Basic

/-!
# Strings of the source language

`trim` strips what `String.prototype.trim` strips, and `codeUnits` are the UTF-16 code
units by which the language compares and sorts strings.
-/

namespace Delegatus.JsStrings

/-- White space and line terminators. -/
def isSpace (c : Char) : Bool :=
  (0x09 ≤ c.toNat && c.toNat ≤ 0x0D) || c.toNat = 0x20 || c.toNat = 0xA0 || c.toNat = 0x1680 ||
    (0x2000 ≤ c.toNat && c.toNat ≤ 0x200A) || c.toNat = 0x2028 || c.toNat = 0x2029 ||
    c.toNat = 0x202F || c.toNat = 0x205F || c.toNat = 0x3000 || c.toNat = 0xFEFF

/-- `text.trim()`, over the characters. -/
def trimList (chars : List Char) : List Char :=
  ((chars.dropWhile isSpace).reverse.dropWhile isSpace).reverse

def trim (text : String) : String := String.ofList (trimList text.toList)

/-- The code units of a character: a surrogate pair above the basic plane. -/
def charUnits (c : Char) : List Nat :=
  if c.toNat < 0x10000 then [c.toNat]
  else [0xD800 + (c.toNat - 0x10000) / 0x400, 0xDC00 + (c.toNat - 0x10000) % 0x400]

def codeUnits (text : String) : List Nat := text.toList.flatMap charUnits

/-- `array.sort()` of strings. -/
def sort (texts : List String) : List String :=
  texts.mergeSort (fun a b => decide (codeUnits a ≤ codeUnits b))

theorem trimList_of_no_space {chars : List Char} (h : ∀ c ∈ chars, isSpace c = false) :
    trimList chars = chars := by
  have hdrop : ∀ list : List Char, (∀ c ∈ list, isSpace c = false) →
      list.dropWhile isSpace = list := by
    intro list hlist
    cases list with
    | nil => rfl
    | cons c rest => simp [hlist c List.mem_cons_self]
  unfold trimList
  rw [hdrop chars h, hdrop chars.reverse (fun c hc => h c (List.mem_reverse.mp hc)),
    List.reverse_reverse]

/-- A text without white space is what `trim` leaves of it. -/
theorem trim_of_no_space {text : String} (h : ∀ c ∈ text.toList, isSpace c = false) :
    trim text = text := by
  unfold trim
  rw [trimList_of_no_space h, String.ofList_toList]

/-! ### Code units tell texts apart -/

theorem toNat_bounds (c : Char) : c.toNat < 0xD800 ∨ 0xDFFF < c.toNat ∧ c.toNat < 0x110000 := c.valid

theorem charUnits_append_inj {c d : Char} {xs ys : List Nat}
    (h : charUnits c ++ xs = charUnits d ++ ys) : c = d ∧ xs = ys := by
  have hc := toNat_bounds c
  have hd := toNat_bounds d
  have hnat : c.toNat = d.toNat ∧ xs = ys := by
    unfold charUnits at h
    split at h
    · split at h
      · exact List.cons.inj h
      · obtain ⟨hhead, -⟩ := List.cons.inj h
        omega
    · split at h
      · obtain ⟨hhead, -⟩ := List.cons.inj h
        omega
      · obtain ⟨hhead, htail⟩ := List.cons.inj h
        obtain ⟨hlow, hrest⟩ := List.cons.inj htail
        exact ⟨by omega, hrest⟩
  exact ⟨Char.toNat_inj.mp hnat.1, hnat.2⟩

theorem flatMap_charUnits_inj {a b : List Char} (h : a.flatMap charUnits = b.flatMap charUnits) : a = b := by
  induction a generalizing b with
  | nil =>
    cases b with
    | nil => rfl
    | cons d b =>
      rw [List.flatMap_nil, List.flatMap_cons] at h
      exact absurd h.symm (by unfold charUnits; split <;> exact List.cons_ne_nil _ _)
  | cons c a ih =>
    cases b with
    | nil =>
      rw [List.flatMap_nil, List.flatMap_cons] at h
      exact absurd h (by unfold charUnits; split <;> exact List.cons_ne_nil _ _)
    | cons d b =>
      rw [List.flatMap_cons, List.flatMap_cons] at h
      obtain ⟨rfl, hrest⟩ := charUnits_append_inj h
      rw [ih hrest]

/-- A text is told by its code units. -/
theorem codeUnits_injective : Function.Injective codeUnits :=
  fun _ _ h => String.toList_injective (flatMap_charUnits_inj h)

theorem codeUnits_lt {text : String} {u : Nat} (h : u ∈ codeUnits text) : u < 65536 := by
  obtain ⟨c, -, hu⟩ := List.mem_flatMap.mp h
  have hc := toNat_bounds c
  unfold charUnits at hu
  split at hu
  · rw [List.mem_singleton.mp hu]
    omega
  · simp only [List.mem_cons, List.not_mem_nil, or_false] at hu
    omega
end Delegatus.JsStrings
