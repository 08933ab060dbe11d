import Delegatus.DecimalTexts
import Delegatus.LinkStamps
import Mathlib.Algebra.Order.Floor.Ring
import Mathlib.Data.Rat.Floor

/-!
# The text of a stamp

A stamp is stored and compared as a string, `<ms, 13 digits>.<counter, 3 digits>.<8 hex>`.  The
string order of such texts is the order of their fields (`stamp_lt_iff`), and `nextStamp` mints a
text above a watermark, until the last one: past `9999999999999.999` the milliseconds take a
fourteenth digit, and the text is no stamp any more and sorts below its watermark
(`last_stamp_has_no_next`).  `nextStamp_text` says that the texts follow the stamps that the
linked boards are modelled with.
-/

namespace Delegatus.StampTexts

open DecimalTexts
open JsonText (Text isDigit units)
open LinkStamps (Stamp)

/-! ### Stamps -/

def isHexDigit (u : UInt16) : Bool := isDigit u || (97 ≤ u && u ≤ 102)

/-- The last field of a stamp: eight hexadecimal digits. -/
def isInstallPrefix (text : Text) : Bool := text.length = 8 && text.all isHexDigit

/-- `STAMP_PATTERN.test(text)`. -/
def isStamp (text : Text) : Bool :=
  (text.take 13).length = 13 && (text.take 13).all isDigit && text[13]? = some 46 &&
    ((text.drop 14).take 3).length = 3 && ((text.drop 14).take 3).all isDigit && text[17]? = some 46 &&
    isInstallPrefix (text.drop 18)

def stampMs (stamp : Text) : Nat := value (stamp.take 13)

def stampCounter (stamp : Text) : Nat := value ((stamp.drop 14).take 3)

def stampPrefix (stamp : Text) : Text := stamp.drop 18

/-! ### The clock -/

/-- What `Date.now` or a test's clock gives: any number of the language. -/
inductive Clock where
  | nan
  | negativeInfinity
  | infinity
  | finite (value : Rat)

def MAX_STAMP_MS : Nat := 9999999999999

/-- `Math.max(0, Math.min(Math.floor(now), 9_999_999_999_999))`; `none` is `NaN`. -/
def Clock.wall : Clock → Option Nat
  | .nan => none
  | .negativeInfinity => some 0
  | .infinity => some MAX_STAMP_MS
  | .finite value => some (max 0 (min ⌊value⌋ (MAX_STAMP_MS : Int))).toNat

/-- `String(ms)`. -/
def numberText : Option Nat → Text
  | none => units "NaN"
  | some n => decimal n

def format (ms : Option Nat) (counter : Nat) (pfx : Text) : Text :=
  padStart 13 (numberText ms) ++ 46 :: (padStart 3 (decimal counter) ++ 46 :: pfx)

/-- The next stamp above `watermark`, which is empty or `null` where there is none. -/
def nextStamp (watermark : Option Text) (now : Clock) (pfx : Text) : Text :=
  match watermark with
  | none | some [] => format now.wall 0 pfx
  | some mark =>
    -- `NaN > markMs` does not hold.
    if now.wall.any (stampMs mark < ·) then format now.wall 0 pfx
    else if stampCounter mark < 999 then format (some (stampMs mark)) (stampCounter mark + 1) pfx
    else format (some (stampMs mark + 1)) 0 pfx

/-! ### Fields -/

/-- The fields of a stamp, in the order in which they are compared. -/
structure Fields (stamp ms counter pfx : Text) : Prop where
  text : stamp = ms ++ 46 :: (counter ++ 46 :: pfx)
  ms_length : ms.length = 13
  counter_length : counter.length = 3
  ms_digits : Digits ms
  counter_digits : Digits counter
  prefix_hex : isInstallPrefix pfx = true

variable {stamp stamp' ms counter pfx ms' counter' pfx' : Text}

theorem Fields.parts (h : Fields stamp ms counter pfx) :
    stamp.take 13 = ms ∧ stamp[13]? = some 46 ∧ (stamp.drop 14).take 3 = counter ∧
      stamp[17]? = some 46 ∧ stamp.drop 18 = pfx := by
  have hrest : stamp.drop 14 = counter ++ 46 :: pfx := by
    rw [h.text, List.drop_append, h.ms_length, List.drop_eq_nil_of_le (by rw [h.ms_length]; decide)]
    exact rfl
  refine ⟨?_, ?_, ?_, ?_, ?_⟩
  · rw [h.text, List.take_left' h.ms_length]
  · rw [h.text, List.getElem?_append_right (by rw [h.ms_length]), h.ms_length]
    exact rfl
  · rw [hrest, List.take_left' h.counter_length]
  · have hat : stamp[17]? = (stamp.drop 14)[3]? := by rw [List.getElem?_drop]
    rw [hat, hrest, List.getElem?_append_right (by rw [h.counter_length]), h.counter_length]
    exact rfl
  · have hdrop : stamp.drop 18 = (stamp.drop 14).drop 4 := by rw [List.drop_drop]
    rw [hdrop, hrest, List.drop_append, h.counter_length,
      List.drop_eq_nil_of_le (by rw [h.counter_length]; decide)]
    exact rfl

theorem split_at {text : Text} {n : Nat} {u : UInt16} (h : text[n]? = some u) :
    text = text.take n ++ u :: text.drop (n + 1) := by
  obtain ⟨hlt, rfl⟩ := List.getElem?_eq_some_iff.mp h
  rw [← List.drop_eq_getElem_cons hlt, List.take_append_drop]

theorem isStamp_iff : isStamp stamp = true ↔ ∃ ms counter pfx, Fields stamp ms counter pfx := by
  constructor
  · intro h
    unfold isStamp at h
    simp only [Bool.and_eq_true, decide_eq_true_iff, List.all_eq_true] at h
    obtain ⟨⟨⟨⟨⟨⟨hlength, hms⟩, hdot⟩, hlength'⟩, hcounter⟩, hdot'⟩, hhex⟩ := h
    refine ⟨_, _, _, ?_, hlength, hlength', hms, hcounter, hhex⟩
    have hat : (stamp.drop 14)[3]? = some 46 := by rw [List.getElem?_drop, hdot']
    have hrest : (stamp.drop 14).drop 4 = stamp.drop 18 := by rw [List.drop_drop]
    rw [← hrest, ← split_at hat]
    exact split_at hdot
  · rintro ⟨ms, counter, pfx, h⟩
    obtain ⟨hms, hdot, hcounter, hdot', hhex⟩ := h.parts
    unfold isStamp
    rw [hms, hdot, hcounter, hdot', hhex, h.ms_length, h.counter_length, h.prefix_hex,
      List.all_eq_true.mpr h.ms_digits, List.all_eq_true.mpr h.counter_digits]
    decide

/-- The digits before a point are where they are. -/
theorem digits_split {a b x y : Text} (ha : Digits a) (hb : Digits b) (h : a ++ 46 :: x = b ++ 46 :: y) :
    a = b ∧ x = y := by
  have htake : ∀ {d r : Text}, Digits d → (d ++ 46 :: r).takeWhile isDigit = d := by
    intro d r hd
    rw [List.takeWhile_append_of_pos hd, List.takeWhile_cons_of_neg (by decide), List.append_nil]
  have hsame : a = b := by rw [← htake ha, h, htake hb]
  subst hsame
  exact ⟨Eq.refl a, (List.cons.inj (List.append_cancel_left h)).2⟩

/-- A written stamp is one while its milliseconds fit. -/
theorem isStamp_format_iff {m c : Nat} (hc : c < 1000) :
    isStamp (format (some m) c pfx) = true ↔ m ≤ MAX_STAMP_MS ∧ isInstallPrefix pfx = true := by
  have hms := @digits_padStart _ 13 (digits_decimal m)
  have hcounter := @digits_padStart _ 3 (digits_decimal c)
  rw [isStamp_iff]
  constructor
  · rintro ⟨ms, counter, pfx', h⟩
    obtain ⟨rfl, hrest⟩ := digits_split hms h.ms_digits h.text
    obtain ⟨-, rfl⟩ := digits_split hcounter h.counter_digits hrest
    have hfits := (length_padded_iff (by decide)).mp h.ms_length
    exact ⟨Nat.le_pred_of_lt hfits, h.prefix_hex⟩
  · rintro ⟨hm, hhex⟩
    exact ⟨_, _, _, Eq.refl _, (length_padded_iff (by decide)).mpr (Nat.lt_succ_of_le hm),
      (length_padded_iff (by decide)).mpr hc, hms, hcounter, hhex⟩

theorem fields_format {m c : Nat} (h : isStamp (format (some m) c pfx) = true) (hc : c < 1000) :
    stampMs (format (some m) c pfx) = m ∧ stampCounter (format (some m) c pfx) = c := by
  obtain ⟨hm, hhex⟩ := (isStamp_format_iff hc).mp h
  have hfields : Fields (format (some m) c pfx) (padStart 13 (decimal m)) (padStart 3 (decimal c)) pfx :=
    ⟨Eq.refl _, (length_padded_iff (by decide)).mpr (Nat.lt_succ_of_le hm),
      (length_padded_iff (by decide)).mpr hc, digits_padStart (digits_decimal m),
      digits_padStart (digits_decimal c), hhex⟩
  obtain ⟨hms, -, hcounter, -, -⟩ := hfields.parts
  unfold stampMs stampCounter
  rw [hms, hcounter, value_padStart, value_padStart, value_decimal, value_decimal]
  exact ⟨Eq.refl m, Eq.refl c⟩

/-! ### The order -/

/-- The milliseconds, the counter and the prefix, compared in this order. -/
def key (stamp : Text) : Nat ×ₗ Nat ×ₗ Text :=
  toLex (stampMs stamp, toLex (stampCounter stamp, stampPrefix stamp))

/-- The string order of stamps is the order of their fields. -/
theorem stamp_lt_iff (h : isStamp stamp = true) (h' : isStamp stamp' = true) :
    stamp < stamp' ↔ key stamp < key stamp' := by
  obtain ⟨ms, counter, pfx, hf⟩ := isStamp_iff.mp h
  obtain ⟨ms', counter', pfx', hf'⟩ := isStamp_iff.mp h'
  have hms : ms.length = ms'.length := hf.ms_length.trans hf'.ms_length.symm
  have hcounter : counter.length = counter'.length := hf.counter_length.trans hf'.counter_length.symm
  have hms_eq : ms = ms' ↔ value ms = value ms' :=
    ⟨congrArg value, value_inj hf.ms_digits hf'.ms_digits hms⟩
  have hcounter_eq : counter = counter' ↔ value counter = value counter' :=
    ⟨congrArg value, value_inj hf.counter_digits hf'.counter_digits hcounter⟩
  obtain ⟨p1, -, p2, -, p3⟩ := hf.parts
  obtain ⟨q1, -, q2, -, q3⟩ := hf'.parts
  unfold key stampMs stampCounter stampPrefix
  rw [p1, p2, p3, q1, q2, q3, Prod.Lex.toLex_lt_toLex, Prod.Lex.toLex_lt_toLex, ← hms_eq, ← hcounter_eq,
    ← lt_iff_value_lt hf.ms_digits hf'.ms_digits hms,
    ← lt_iff_value_lt hf.counter_digits hf'.counter_digits hcounter, hf.text, hf'.text,
    append_lt_append_iff hms, List.cons_lt_cons_iff, append_lt_append_iff hcounter, List.cons_lt_cons_iff]
  simp

/-! ### The next stamp -/

theorem Clock.wall_le {now : Clock} {wall : Nat} (h : now.wall = some wall) : wall ≤ MAX_STAMP_MS := by
  cases now with
  | nan => cases h
  | negativeInfinity =>
    obtain rfl := Option.some.inj h
    exact Nat.zero_le _
  | infinity =>
    obtain rfl := Option.some.inj h
    exact Nat.le_refl _
  | finite value =>
    obtain rfl := Option.some.inj h
    omega

theorem nextStamp_of_stamp {mark : Text} (hmark : isStamp mark = true) (now : Clock) (pfx : Text) :
    nextStamp (some mark) now pfx =
      if now.wall.any (stampMs mark < ·) then format now.wall 0 pfx
      else if stampCounter mark < 999 then format (some (stampMs mark)) (stampCounter mark + 1) pfx
      else format (some (stampMs mark + 1)) 0 pfx := by
  cases mark with
  | nil => exact absurd hmark (by decide)
  | cons u rest => exact Eq.refl _

/-- What `nextStamp` writes above a stamp: later milliseconds, or the same ones and a later
counter. -/
theorem nextStamp_spec {mark : Text} (hmark : isStamp mark = true) (now : Clock) (pfx : Text) :
    ∃ ms counter, nextStamp (some mark) now pfx = format (some ms) counter pfx ∧ counter < 1000 ∧
      (stampMs mark < ms ∨ stampMs mark = ms ∧ stampCounter mark < counter) ∧
      (ms ≤ MAX_STAMP_MS ↔ ¬(stampMs mark = MAX_STAMP_MS ∧ stampCounter mark = 999)) := by
  obtain ⟨m, c, p, hfields⟩ := isStamp_iff.mp hmark
  obtain ⟨hms, -, hcounter, -, -⟩ := hfields.parts
  have hmax : stampMs mark ≤ MAX_STAMP_MS := by
    have hlt := value_lt hfields.ms_digits
    rw [hfields.ms_length] at hlt
    unfold stampMs MAX_STAMP_MS
    rw [hms]
    omega
  have hlast : stampCounter mark ≤ 999 := by
    have hlt := value_lt hfields.counter_digits
    rw [hfields.counter_length] at hlt
    unfold stampCounter
    rw [hcounter]
    omega
  rw [nextStamp_of_stamp hmark]
  split
  · next hwall =>
    obtain ⟨wall, hsome, hlater⟩ := (Option.any_eq_true _ _).mp hwall
    have hle := Clock.wall_le hsome
    have hlt : stampMs mark < wall := of_decide_eq_true hlater
    refine ⟨wall, 0, by rw [hsome], by decide, Or.inl hlt, ?_⟩
    constructor
    · intro _
      omega
    · exact fun _ => hle
  · split
    · next hroom =>
      refine ⟨stampMs mark, stampCounter mark + 1, Eq.refl _, by omega, Or.inr ⟨Eq.refl _, Nat.lt_succ_self _⟩, ?_⟩
      constructor
      · intro _
        omega
      · exact fun _ => hmax
    · next hfull =>
      refine ⟨stampMs mark + 1, 0, Eq.refl _, by decide, Or.inl (Nat.lt_succ_self _), ?_⟩
      omega

/-- The text of a stamp of the linked boards. -/
def text (stamp : Stamp) : Text := format (some stamp.ms) stamp.counter (units stamp.pfx)

/-- The texts follow the stamps of the linked boards. -/
theorem nextStamp_text {mark : Stamp} (hmark : isStamp (text mark) = true) (hcounter : mark.counter < 1000)
    (now : Int) (pfx : String) :
    nextStamp (some (text mark)) (.finite now) (units pfx) = text (LinkStamps.nextStamp (some mark) now pfx) := by
  obtain ⟨hms, hc⟩ := fields_format hmark hcounter
  have hwall : Clock.wall (.finite (now : Rat)) =
      some (max 0 (min now LinkStamps.MAX_STAMP_MS)).toNat := by
    rw [Clock.wall, Int.floor_intCast]
    exact Eq.refl _
  rw [nextStamp_of_stamp hmark, hwall]
  unfold text LinkStamps.nextStamp
  dsimp only
  rw [hms, hc, Option.any_some]
  by_cases hlater : mark.ms < (max 0 (min now LinkStamps.MAX_STAMP_MS)).toNat
  · rw [if_pos (decide_eq_true hlater), if_pos hlater]
  · rw [if_neg (by simpa using hlater), if_neg hlater]
    split <;> exact Eq.refl _

/-- **Stamps increase, and in the string order, until the last one.** -/
theorem next_stamp_increases_iff (mark : Text) (now : Clock) (pfx : Text) (hmark : isStamp mark = true) :
    (∀ a b, isStamp a = true → isStamp b = true → (a < b ↔ key a < key b)) ∧
      ((isStamp (nextStamp (some mark) now pfx) = true ∧ mark < nextStamp (some mark) now pfx) ↔
        isInstallPrefix pfx = true ∧ ¬(stampMs mark = MAX_STAMP_MS ∧ stampCounter mark = 999)) := by
  refine ⟨fun a b ha hb => stamp_lt_iff ha hb, ?_⟩
  obtain ⟨ms, counter, hnext, hcounter, hlater, hroom⟩ := nextStamp_spec hmark now pfx
  rw [hnext, isStamp_format_iff hcounter, hroom]
  constructor
  · rintro ⟨⟨hfits, hhex⟩, -⟩
    exact ⟨hhex, hfits⟩
  · rintro ⟨hhex, hfits⟩
    refine ⟨⟨hfits, hhex⟩, ?_⟩
    have hstamp := (isStamp_format_iff hcounter).mpr ⟨hroom.mpr hfits, hhex⟩
    obtain ⟨hms, hc⟩ := fields_format hstamp hcounter
    rw [stamp_lt_iff hmark hstamp, key, key, hms, hc, Prod.Lex.toLex_lt_toLex, Prod.Lex.toLex_lt_toLex]
    rcases hlater with hlt | ⟨heq, hlt⟩
    · exact Or.inl hlt
    · exact Or.inr ⟨heq, Or.inl hlt⟩

theorem next_stamp_increases_above_first :
    (isStamp (nextStamp (some (units "0000000000000.999.aaaaaaaa")) .nan (units "bbbbbbbb")) = true ∧
        units "0000000000000.999.aaaaaaaa" <
          nextStamp (some (units "0000000000000.999.aaaaaaaa")) .nan (units "bbbbbbbb")) ↔
      isInstallPrefix (units "bbbbbbbb") = true ∧
        ¬(stampMs (units "0000000000000.999.aaaaaaaa") = MAX_STAMP_MS ∧
          stampCounter (units "0000000000000.999.aaaaaaaa") = 999) :=
  (next_stamp_increases_iff _ _ _ (by decide)).2

/-- **The last stamp has no next one.** -/
theorem last_stamp_has_no_next :
    ¬ ∀ mark now pfx, isStamp mark = true → isInstallPrefix pfx = true →
      isStamp (nextStamp (some mark) now pfx) = true ∧ mark < nextStamp (some mark) now pfx := by
  intro h
  have hmark : isStamp (units "9999999999999.999.aaaaaaaa") = true := by decide
  have hhex : isInstallPrefix (units "aaaaaaaa") = true := by decide
  have hlast : stampMs (units "9999999999999.999.aaaaaaaa") = MAX_STAMP_MS ∧
      stampCounter (units "9999999999999.999.aaaaaaaa") = 999 := by
    decide
  obtain ⟨ms, counter, hnext, hcounter, -, hroom⟩ := nextStamp_spec hmark (.finite 0) (units "aaaaaaaa")
  obtain ⟨hstamp, -⟩ := h _ (.finite 0) _ hmark hhex
  rw [hnext, isStamp_format_iff hcounter, hroom] at hstamp
  exact hstamp.1 hlast

end Delegatus.StampTexts
