import Delegatus.JsonText
import Mathlib

/-!
# Code points and UTF-8 lengths of strings over code units

A string iterates by code points: a surrogate pair is one, and so is a surrogate without its other
half, which an encoder writes as the three bytes of U+FFFD.  Lengths add up over a concatenation that
splits no pair (`utf8Length_append`), and an encoded string has at least as many bytes as code units.
-/

namespace Delegatus.Utf8Texts

open JsonText

/-- `[...text]`: the code points, each with its units. -/
def points : Text → List Text
  | [] => []
  | [u] => [[u]]
  | u :: v :: rest => if isLead u && isTrail v then [u, v] :: points rest else [u] :: points (v :: rest)

/-- The bytes that an encoder writes for a code point. -/
def pointBytes : Text → Nat
  | [u] => if u < 0x80 then 1 else if u < 0x800 then 2 else 3
  | _ => 4

/-- `Buffer.byteLength(text)`. -/
def utf8Length (text : Text) : Nat := ((points text).map pointBytes).sum

/-! ### Code points -/

theorem points_flatten (text : Text) : (points text).flatten = text := by
  induction text using points.induct with
  | case1 => rfl
  | case2 u => rfl
  | case3 u v rest hpair ih => rw [points, if_pos hpair, List.flatten_cons, ih, List.cons_append]; rfl
  | case4 u v rest hpair ih => rw [points, if_neg hpair, List.flatten_cons, ih]; rfl

/-- A code point is one unit or a surrogate pair. -/
theorem mem_points {text point : Text} (h : point ∈ points text) :
    (∃ u, point = [u]) ∨ ∃ u v, point = [u, v] ∧ isLead u = true ∧ isTrail v = true := by
  induction text using points.induct with
  | case1 => exact nomatch h
  | case2 u =>
    left
    exact ⟨u, List.mem_singleton.mp h⟩
  | case3 u v rest hpair ih =>
    rw [points, if_pos hpair] at h
    rcases List.mem_cons.mp h with rfl | hrest
    · right
      exact ⟨u, v, rfl, Bool.and_eq_true_iff.mp hpair⟩
    · exact ih hrest
  | case4 u v rest hpair ih =>
    rw [points, if_neg hpair] at h
    rcases List.mem_cons.mp h with rfl | hrest
    · exact Or.inl ⟨u, rfl⟩
    · exact ih hrest

theorem pointBytes_pos (point : Text) : 0 < pointBytes point := by
  unfold pointBytes
  split
  · split
    · decide
    · split <;> decide
  · decide

/-- The last unit of `front` and the first of `back` are no surrogate pair. -/
def Apart (front back : Text) : Prop :=
  ∀ u v, front.getLast? = some u → back.head? = some v → ¬(isLead u = true ∧ isTrail v = true)

theorem Apart.of_last {front back : Text} {u : UInt16} (hlast : front.getLast? = some u)
    (hlead : isLead u = false) : Apart front back := by
  intro u' v hu' _ hboth
  rw [hlast, Option.some.injEq] at hu'
  rw [hu', hboth.1] at hlead
  exact nomatch hlead

theorem points_append {front back : Text} (h : Apart front back) :
    points (front ++ back) = points front ++ points back := by
  induction front using points.induct with
  | case1 => rfl
  | case2 u =>
    cases back with
    | nil => rfl
    | cons v rest =>
      have hnot : ¬(isLead u && isTrail v) = true := by
        rw [Bool.and_eq_true]
        exact h u v rfl rfl
      have hsplit : points (u :: v :: rest) = [u] :: points (v :: rest) := by
        rw [points, if_neg hnot]
      exact hsplit
  | case3 u v rest hpair ih =>
    have hrest : Apart rest back := by
      intro w x hw hx
      refine h w x ?_ hx
      rw [List.getLast?_cons, List.getLast?_cons, hw]
      rfl
    rw [List.cons_append, List.cons_append, points, if_pos hpair, ih hrest, points, if_pos hpair,
      List.cons_append]
  | case4 u v rest hpair ih =>
    have hrest : Apart (v :: rest) back := by
      intro w x hw hx
      refine h w x ?_ hx
      rw [List.getLast?_cons, hw]
      rfl
    rw [List.cons_append, List.cons_append, points, if_neg hpair, ← List.cons_append, ih hrest,
      points, if_neg hpair, List.cons_append]

theorem not_lead_of_trail {u : UInt16} (h : isTrail u = true) : isLead u = false := by
  unfold isTrail at h
  unfold isLead
  simp only [Bool.and_eq_true, decide_eq_true_eq, UInt16.le_iff_toNat_le, UInt16.reduceToNat] at h
  simp only [Bool.and_eq_false_iff, decide_eq_false_iff_not, UInt16.le_iff_toNat_le, UInt16.reduceToNat]
  omega

/-- Only the last unit matters. -/
theorem Apart.append_left {front back : Text} (h : Apart front back) (hfront : front ≠ []) (before : Text) :
    Apart (before ++ front) back := by
  intro u v hlast hhead
  rw [List.getLast?_append_of_ne_nil _ hfront] at hlast
  exact h u v hlast hhead

/-- The first code points of a text are those of a text of their own, and a pair is not split after them. -/
theorem points_front {text : Text} {front rest : List Text} (h : points text = front ++ rest) :
    points front.flatten = front ∧ Apart front.flatten rest.flatten := by
  induction text using points.induct generalizing front with
  | case1 =>
    obtain ⟨rfl, rfl⟩ := List.append_eq_nil_iff.mp h.symm
    exact ⟨rfl, fun _ _ hlast _ => absurd hlast nofun⟩
  | case2 u =>
    cases front with
    | nil => exact ⟨rfl, fun _ _ hlast _ => absurd hlast nofun⟩
    | cons point front =>
      obtain ⟨rfl, hnone⟩ := List.cons.inj h
      obtain ⟨rfl, rfl⟩ := List.append_eq_nil_iff.mp hnone.symm
      exact ⟨rfl, fun _ _ _ hhead => absurd hhead nofun⟩
  | case3 u v others hpair ih =>
    rw [points, if_pos hpair] at h
    cases front with
    | nil => exact ⟨rfl, fun _ _ hlast _ => absurd hlast nofun⟩
    | cons point front =>
      obtain ⟨rfl, hfront⟩ := List.cons.inj h
      obtain ⟨hpoints, hapart⟩ := ih hfront
      refine ⟨?_, ?_⟩
      · rw [List.flatten_cons, List.cons_append, List.singleton_append, points, if_pos hpair, hpoints]
      · rw [List.flatten_cons]
        by_cases hnone : front.flatten = []
        · rw [hnone, List.append_nil]
          exact Apart.of_last rfl (not_lead_of_trail (Bool.and_eq_true_iff.mp hpair).2)
        · exact hapart.append_left hnone _
  | case4 u v others hpair ih =>
    rw [points, if_neg hpair] at h
    cases front with
    | nil => exact ⟨rfl, fun _ _ hlast _ => absurd hlast nofun⟩
    | cons point front =>
      obtain ⟨rfl, hfront⟩ := List.cons.inj h
      obtain ⟨hpoints, hapart⟩ := ih hfront
      have htext : front.flatten ++ rest.flatten = v :: others := by
        rw [← List.flatten_append, show front ++ rest = points (v :: others) from hfront.symm, points_flatten]
      rw [List.flatten_cons, List.singleton_append]
      cases hunits : front.flatten with
      | nil =>
        rw [hunits, List.nil_append] at htext
        rw [hunits] at hpoints
        refine ⟨by rw [← hpoints]; exact rfl, ?_⟩
        rw [htext]
        intro u' v' hlast hhead hboth
        obtain rfl := Option.some.inj hlast
        obtain rfl := Option.some.inj hhead
        exact hpair (Bool.and_eq_true_iff.mpr hboth)
      | cons w units =>
        rw [hunits, List.cons_append] at htext
        obtain ⟨rfl, -⟩ := List.cons.inj htext
        rw [hunits] at hpoints hapart
        exact ⟨by rw [points, if_neg hpair, hpoints], hapart.append_left (List.cons_ne_nil _ _) [u]⟩

/-! ### Lengths -/

theorem utf8Length_append {front back : Text} (h : Apart front back) :
    utf8Length (front ++ back) = utf8Length front + utf8Length back := by
  rw [utf8Length, points_append h, List.map_append, List.sum_append]
  rfl

theorem length_le_pointBytes {text point : Text} (h : point ∈ points text) :
    point.length ≤ pointBytes point := by
  rcases mem_points h with ⟨u, rfl⟩ | ⟨u, v, rfl, -, -⟩
  · exact pointBytes_pos [u]
  · rw [pointBytes.eq_def]
    simp

theorem length_le_utf8Length (text : Text) : text.length ≤ utf8Length text := by
  have hlength : text.length = ((points text).map List.length).sum := by
    conv_lhs => rw [← points_flatten text, List.length_flatten]
  rw [hlength, utf8Length]
  have hle : ∀ ps : List Text, (∀ point ∈ ps, point.length ≤ pointBytes point) →
      (ps.map List.length).sum ≤ (ps.map pointBytes).sum := by
    intro ps hps
    induction ps with
    | nil => exact le_refl _
    | cons point rest ih =>
      rw [List.map_cons, List.map_cons, List.sum_cons, List.sum_cons]
      exact Nat.add_le_add (hps point List.mem_cons_self)
        (ih fun other hother => hps other (List.mem_cons_of_mem _ hother))
  exact hle _ fun point hpoint => length_le_pointBytes hpoint

/-- An ASCII text has a byte for each unit. -/
theorem utf8Length_ascii {text : Text} (h : ∀ u ∈ text, u < 0x80) : utf8Length text = text.length := by
  induction text using points.induct with
  | case1 => rfl
  | case2 u =>
    have hu := h u (List.mem_singleton_self u)
    simp [utf8Length, points, pointBytes, hu]
  | case3 u v rest hpair ih =>
    have hu := h u List.mem_cons_self
    rw [Bool.and_eq_true] at hpair
    have hlead := hpair.1
    simp only [isLead, Bool.and_eq_true, decide_eq_true_eq] at hlead
    rw [UInt16.lt_iff_toNat_lt] at hu
    have hle := UInt16.le_iff_toNat_le.mp hlead.1
    exact absurd (hle.trans_lt hu) (by decide)
  | case4 u v rest hpair ih =>
    have hu := h u List.mem_cons_self
    have hrest := ih fun w hw => h w (List.mem_cons_of_mem _ hw)
    rw [utf8Length, points, if_neg hpair, List.map_cons, List.sum_cons, ← utf8Length, hrest,
      List.length_cons (a := u)]
    have hone : pointBytes [u] = 1 := by simp [pointBytes, hu]
    rw [hone, Nat.add_comm]

end Delegatus.Utf8Texts
