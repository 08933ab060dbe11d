import Delegatus.JsonText
import Mathlib.Data.List.TakeWhile

/-!
# Where a JSON text holds backticks

Outside its strings a JSON text holds white space, punctuation, numbers and three words; a string
holds no newline.  So a unit that none of these uses stands, on its line, after a quote: `parse`
accepts no text with a line that starts with a backtick or a tilde.
-/

namespace Delegatus.JsonText

/-- A backtick or a tilde. -/
def isTick (u : UInt16) : Bool := u = 96 || u = 126

/-- Every tick follows a quote on its line. -/
def Quoted (text : Text) : Prop :=
  ∀ front tick back, text = front ++ tick :: back → isTick tick = true →
    ∃ before after, front = before ++ 34 :: after ∧ (10 : UInt16) ∉ after

theorem Quoted.append {a b : Text} (ha : Quoted a) (hb : Quoted b) : Quoted (a ++ b) := by
  intro front tick back h htick
  rcases List.append_eq_append_iff.mp h with ⟨more, hfront, hb'⟩ | ⟨more, ha', htail⟩
  · obtain ⟨before, after, hmore, hafter⟩ := hb more tick back hb' htick
    refine ⟨a ++ before, after, ?_, hafter⟩
    rw [hfront, hmore, List.append_assoc]
  · cases more with
    | nil =>
      rw [List.append_nil] at ha'
      obtain ⟨before, after, hmore, hafter⟩ := hb [] tick back htail.symm htick
      exact absurd hmore (by simp)
    | cons first more =>
      rw [List.cons_append] at htail
      obtain ⟨hfirst, -⟩ := List.cons.inj htail
      rw [← hfirst] at ha'
      exact ha front tick more ha' htick

theorem quoted_of_plain {text : Text} (h : ∀ u ∈ text, isTick u = false) : Quoted text := by
  intro front tick back htext htick
  have hplain := h tick (by rw [htext]; simp)
  exact absurd htick (by rw [hplain]; decide)

theorem quoted_string {body : Text} (h : (10 : UInt16) ∉ body) : Quoted (34 :: body) := by
  intro front tick back htext htick
  cases front with
  | nil =>
    have hquote : tick = 34 := (List.cons.inj htext).1.symm
    rw [hquote] at htick
    exact absurd htick (by decide)
  | cons first front =>
    obtain ⟨hfirst, hbody⟩ := List.cons.inj htext
    refine ⟨[], front, by rw [← hfirst]; rfl, ?_⟩
    rw [hbody] at h
    exact fun hmem => h (List.mem_append_left _ hmem)

/-- What was read off the input holds its ticks in strings. -/
def Reads (input rest : Text) : Prop := ∃ used, input = used ++ rest ∧ Quoted used

theorem Reads.trans {a b c : Text} (h : Reads a b) (h' : Reads b c) : Reads a c := by
  obtain ⟨used, ha, hused⟩ := h
  obtain ⟨used', hb, hused'⟩ := h'
  exact ⟨used ++ used', by rw [ha, hb, List.append_assoc], hused.append hused'⟩

theorem Reads.plain {input used rest : Text} (h : input = used ++ rest)
    (hused : ∀ u ∈ used, isTick u = false) : Reads input rest := ⟨used, h, quoted_of_plain hused⟩

theorem Reads.refl (input : Text) : Reads input input :=
  Reads.plain (List.nil_append input).symm fun _ hu => nomatch hu

theorem Reads.unit {u : UInt16} (rest : Text) (h : isTick u = false) : Reads (u :: rest) rest := by
  apply Reads.plain (List.singleton_append).symm
  intro v hv
  rw [List.mem_singleton.mp hv]
  exact h

theorem Reads.while (p : UInt16 → Bool) (hp : ∀ u, p u = true → isTick u = false) (input : Text) :
    Reads input (input.dropWhile p) := by
  apply Reads.plain List.takeWhile_append_dropWhile.symm
  intro u hu
  exact hp u (List.mem_takeWhile_imp hu)

theorem isTick_of_isSpace (u : UInt16) (h : isSpace u = true) : isTick u = false := by
  unfold isSpace at h
  simp only [Bool.or_eq_true, decide_eq_true_eq] at h
  rcases h with ((h | h) | h) | h <;> rw [h] <;> decide

theorem isTick_of_isDigit (u : UInt16) (h : isDigit u = true) : isTick u = false := by
  unfold isDigit at h
  unfold isTick
  rw [Bool.and_eq_true, decide_eq_true_eq, decide_eq_true_eq] at h
  rw [Bool.or_eq_false_iff, decide_eq_false_iff_not, decide_eq_false_iff_not]
  constructor
  · intro hu
    rw [hu] at h
    exact absurd h.2 (by decide)
  · intro hu
    rw [hu] at h
    exact absurd h.2 (by decide)

theorem reads_skipSpace (input : Text) : Reads input (skipSpace input) :=
  Reads.while isSpace isTick_of_isSpace input

/-! ### Strings -/

theorem hexValue_newline : hexValue 10 = none := by decide

theorem readHex_no_newline {a b c d unit : UInt16} (h : readHex a b c d = some unit) :
    (10 : UInt16) ∉ [a, b, c, d] := by
  unfold readHex at h
  obtain ⟨a', ha, h⟩ := Option.bind_eq_some_iff.mp h
  obtain ⟨b', hb, h⟩ := Option.bind_eq_some_iff.mp h
  obtain ⟨c', hc, h⟩ := Option.bind_eq_some_iff.mp h
  obtain ⟨d', hd, -⟩ := Option.bind_eq_some_iff.mp h
  intro hmem
  simp only [List.mem_cons, List.not_mem_nil, or_false] at hmem
  rcases hmem with rfl | rfl | rfl | rfl
  · exact nomatch hexValue_newline.symm.trans ha
  · exact nomatch hexValue_newline.symm.trans hb
  · exact nomatch hexValue_newline.symm.trans hc
  · exact nomatch hexValue_newline.symm.trans hd

theorem escapedUnit_no_newline {letter unit : UInt16} (h : escapedUnit letter = some unit) :
    letter ≠ 10 := by
  intro hletter
  have hnone : escapedUnit 10 = none := by decide
  rw [hletter, hnone] at h
  exact nomatch h

theorem rest_of_map {unit : UInt16} {read : Option (Text × Text)} {text rest : Text}
    (h : read.map (fun (text, rest) => (unit :: text, rest)) = some (text, rest)) :
    ∃ text', read = some (text', rest) := by
  obtain ⟨⟨text', rest'⟩, hread, hpair⟩ := Option.map_eq_some_iff.mp h
  rw [hread, ← (Prod.mk.inj hpair).2]
  exact ⟨text', rfl⟩

/-- What is left of a string: its units up to a quote, none of them a newline. -/
def ClosesWith (rest input : Text) : Prop :=
  ∃ body, input = body ++ 34 :: rest ∧ (10 : UInt16) ∉ body

theorem ClosesWith.prepend {rest input : Text} (h : ClosesWith rest input) {front : Text}
    (hfront : (10 : UInt16) ∉ front) : ClosesWith rest (front ++ input) := by
  obtain ⟨body, hinput, hbody⟩ := h
  refine ⟨front ++ body, by rw [hinput, List.append_assoc], ?_⟩
  rw [List.mem_append, not_or]
  exact ⟨hfront, hbody⟩

/-- A string ends with its quote and holds no newline. -/
theorem readString_closes {input text rest : Text} (h : readString input = some (text, rest)) :
    ClosesWith rest input := by
  fun_induction readString input generalizing text with
  | case1 => exact nomatch h
  | case2 rest' =>
    rw [← (Prod.mk.inj (Option.some.inj h)).2]
    exact ⟨[], rfl, List.not_mem_nil⟩
  | case3 => exact nomatch h
  | case4 a b c d rest' unit hhex _ ih =>
    obtain ⟨text', hread⟩ := rest_of_map h
    have hfront : (10 : UInt16) ∉ [92, 117, a, b, c, d] := by
      rw [List.mem_cons, not_or, List.mem_cons, not_or]
      exact ⟨by decide, by decide, readHex_no_newline hhex⟩
    exact (ih hread).prepend hfront
  | case5 => exact nomatch h
  | case6 => exact nomatch h
  | case7 letter rest' _ unit hescaped _ ih =>
    obtain ⟨text', hread⟩ := rest_of_map h
    have hfront : (10 : UInt16) ∉ [92, letter] := by
      rw [List.mem_cons, not_or, List.mem_singleton]
      exact ⟨by decide, (escapedUnit_no_newline hescaped).symm⟩
    exact (ih hread).prepend hfront
  | case8 => exact nomatch h
  | case9 => exact nomatch h
  | case10 u rest' _ _ hprintable ih =>
    obtain ⟨text', hread⟩ := rest_of_map h
    have hfront : (10 : UInt16) ∉ [u] := by
      rw [List.mem_singleton]
      intro hu
      rw [← hu] at hprintable
      exact hprintable (by decide)
    exact (ih hread).prepend hfront

theorem reads_readString {input text rest : Text} (h : readString input = some (text, rest)) :
    Reads (34 :: input) rest := by
  obtain ⟨body, hinput, hbody⟩ := readString_closes h
  have hquote : Reads (34 :: input) (34 :: rest) :=
    ⟨34 :: body, by rw [hinput, List.cons_append], quoted_string hbody⟩
  exact hquote.trans (Reads.unit rest (by decide))

/-! ### Numbers and words -/

theorem reads_readDigits {input digits rest : Text} (h : readDigits input = some (digits, rest)) :
    Reads input rest := by
  unfold readDigits at h
  dsimp only at h
  split at h
  · exact nomatch h
  · rw [← (Prod.mk.inj (Option.some.inj h)).2]
    exact Reads.while isDigit isTick_of_isDigit input

theorem reads_readInteger {input digits rest : Text} (h : readInteger input = some (digits, rest)) :
    Reads input rest := by
  unfold readInteger at h
  split at h
  · exact nomatch h
  · rename_i u tail
    split at h
    · rename_i hzero
      rw [← (Prod.mk.inj (Option.some.inj h)).2]
      exact Reads.unit tail (by rw [hzero]; decide)
    · exact reads_readDigits h

theorem reads_readFraction {input digits rest : Text} (h : readFraction input = some (digits, rest)) :
    Reads input rest := by
  unfold readFraction at h
  split at h
  · rw [← (Prod.mk.inj (Option.some.inj h)).2]
    exact Reads.refl []
  · rename_i u tail
    split at h
    · rename_i hpoint
      obtain ⟨⟨digits', rest'⟩, hread, hpair⟩ := Option.map_eq_some_iff.mp h
      rw [← (Prod.mk.inj hpair).2]
      exact (Reads.unit tail (by rw [hpoint]; decide)).trans (reads_readDigits hread)
    · rw [← (Prod.mk.inj (Option.some.inj h)).2]
      exact Reads.refl _

theorem reads_readExponent {input digits rest : Text} (h : readExponent input = some (digits, rest)) :
    Reads input rest := by
  unfold readExponent at h
  split at h
  · rw [← (Prod.mk.inj (Option.some.inj h)).2]
    exact Reads.refl []
  · rename_i e tail
    split at h
    · rename_i he
      have hplain : isTick e = false := by
        rw [Bool.or_eq_true, decide_eq_true_eq, decide_eq_true_eq] at he
        rcases he with he | he
        · rw [he]
          decide
        · rw [he]
          decide
      have hfirst := Reads.unit tail hplain
      split at h
      · exact nomatch h
      · rename_i sign more
        split at h
        · rename_i hsign
          have hsigned : isTick sign = false := by
            rw [Bool.or_eq_true, decide_eq_true_eq, decide_eq_true_eq] at hsign
            rcases hsign with hsign | hsign
            · rw [hsign]
              decide
            · rw [hsign]
              decide
          obtain ⟨⟨digits', rest'⟩, hread, hpair⟩ := Option.map_eq_some_iff.mp h
          rw [← (Prod.mk.inj hpair).2]
          exact (hfirst.trans (Reads.unit more hsigned)).trans (reads_readDigits hread)
        · obtain ⟨⟨digits', rest'⟩, hread, hpair⟩ := Option.map_eq_some_iff.mp h
          rw [← (Prod.mk.inj hpair).2]
          exact hfirst.trans (reads_readDigits hread)
    · rw [← (Prod.mk.inj (Option.some.inj h)).2]
      exact Reads.refl _

theorem reads_unsigned (written : Text → Text → Text → Text) {input literal rest : Text}
    (h : (do
      let (integer, input) ← readInteger input
      let (fraction, input) ← readFraction input
      let (exponent, input) ← readExponent input
      return (written integer fraction exponent, input)) = some (literal, rest)) : Reads input rest := by
  obtain ⟨⟨integer, afterInteger⟩, hinteger, h⟩ := Option.bind_eq_some_iff.mp h
  obtain ⟨⟨fraction, afterFraction⟩, hfraction, h⟩ := Option.bind_eq_some_iff.mp h
  obtain ⟨⟨exponent, afterExponent⟩, hexponent, h⟩ := Option.bind_eq_some_iff.mp h
  rw [← (Prod.mk.inj (Option.some.inj h)).2]
  exact ((reads_readInteger hinteger).trans (reads_readFraction hfraction)).trans
    (reads_readExponent hexponent)

theorem reads_readNumber {input literal rest : Text} (h : readNumber input = some (literal, rest)) :
    Reads input rest := by
  unfold readNumber at h
  by_cases hminus : input.head? = some 45
  · obtain ⟨tail, rfl⟩ := List.head?_eq_some_iff.mp hminus
    rw [if_pos hminus] at h
    have hsign := Reads.unit tail (show isTick 45 = false by decide)
    exact hsign.trans (reads_unsigned
      (fun integer fraction exponent => [45] ++ integer ++ fraction ++ exponent) h)
  · rw [if_neg hminus] at h
    exact reads_unsigned (fun integer fraction exponent => [] ++ integer ++ fraction ++ exponent) h

theorem Reads.word {input : Text} {word : String} (h : units word <+: input) {n : Nat}
    (hlength : (units word).length = n) (hplain : (units word).all (fun u => !isTick u) = true) :
    Reads input (input.drop n) := by
  obtain ⟨tail, rfl⟩ := h
  apply Reads.plain
  · rw [List.drop_left' hlength]
  · intro u hu
    exact Bool.not_eq_true' _ ▸ List.all_eq_true.mp hplain u hu

theorem reads_readAtom {input rest : Text} {value : Json} (h : readAtom input = some (value, rest)) :
    Reads input rest := by
  unfold readAtom at h
  split at h
  · rename_i hword
    rw [← (Prod.mk.inj (Option.some.inj h)).2]
    exact Reads.word hword (by decide) (by decide)
  · split at h
    · rename_i hword
      rw [← (Prod.mk.inj (Option.some.inj h)).2]
      exact Reads.word hword (by decide) (by decide)
    · split at h
      · rename_i hword
        rw [← (Prod.mk.inj (Option.some.inj h)).2]
        exact Reads.word hword (by decide) (by decide)
      · obtain ⟨⟨literal, rest'⟩, hread, hpair⟩ := Option.map_eq_some_iff.mp h
        rw [← (Prod.mk.inj hpair).2]
        exact reads_readNumber hread

/-! ### Values -/

theorem Reads.skipped {input : Text} {u : UInt16} {rest : Text} (h : skipSpace input = u :: rest)
    (hplain : isTick u = false) : Reads input rest := by
  have hskip := reads_skipSpace input
  rw [h] at hskip
  exact hskip.trans (Reads.unit rest hplain)

/-- After the first bracket of an empty array or object. -/
theorem Reads.closed {rest : Text} {u : UInt16} (h : (skipSpace rest).head? = some u)
    (hplain : isTick u = false) : Reads rest ((skipSpace rest).drop 1) := by
  obtain ⟨tail, htail⟩ := List.head?_eq_some_iff.mp h
  rw [htail]
  exact Reads.skipped htail hplain

theorem reads_values (fuel : Nat) :
    (∀ input value rest, readValue fuel input = some (value, rest) → Reads input rest) ∧
      (∀ input items rest, readItems fuel input = some (items, rest) → Reads input rest) ∧
      ∀ input members rest, readMembers fuel input = some (members, rest) → Reads input rest := by
  induction fuel with
  | zero =>
    refine ⟨?_, ?_, ?_⟩
    · intro input value rest h
      rw [readValue] at h
      cases h
    · intro input items rest h
      rw [readItems] at h
      cases h
    · intro input members rest h
      rw [readMembers] at h
      cases h
  | succ fuel ih =>
    obtain ⟨ihValue, ihItems, ihMembers⟩ := ih
    refine ⟨?_, ?_, ?_⟩
    · intro input value rest h
      rw [readValue] at h
      split at h
      · cases h
      · rename_i u tail hskip
        split at h
        · rename_i hquote
          obtain ⟨⟨text, rest'⟩, hread, hpair⟩ := Option.map_eq_some_iff.mp h
          rw [← (Prod.mk.inj hpair).2]
          have hspace := reads_skipSpace input
          rw [hskip, hquote] at hspace
          exact hspace.trans (reads_readString hread)
        · split at h
          · rename_i hbracket
            have hopen := Reads.skipped hskip (by rw [hbracket]; decide)
            split at h
            · rename_i hclosed
              rw [← (Prod.mk.inj (Option.some.inj h)).2]
              exact hopen.trans (Reads.closed hclosed (by decide))
            · obtain ⟨⟨items, rest'⟩, hread, hpair⟩ := Option.map_eq_some_iff.mp h
              rw [← (Prod.mk.inj hpair).2]
              exact hopen.trans (ihItems _ _ _ hread)
          · split at h
            · rename_i hbrace
              have hopen := Reads.skipped hskip (by rw [hbrace]; decide)
              split at h
              · rename_i hclosed
                rw [← (Prod.mk.inj (Option.some.inj h)).2]
                exact hopen.trans (Reads.closed hclosed (by decide))
              · obtain ⟨⟨members, rest'⟩, hread, hpair⟩ := Option.map_eq_some_iff.mp h
                rw [← (Prod.mk.inj hpair).2]
                exact hopen.trans (ihMembers _ _ _ hread)
            · have hspace := reads_skipSpace input
              rw [hskip] at hspace
              exact hspace.trans (reads_readAtom h)
    · intro input items rest h
      rw [readItems] at h
      split at h
      · cases h
      · rename_i item tail hitem
        have hfirst := ihValue _ _ _ hitem
        split at h
        · cases h
        · rename_i u after hskip
          split at h
          · rename_i hbracket
            rw [← (Prod.mk.inj (Option.some.inj h)).2]
            exact hfirst.trans (Reads.skipped hskip (by rw [hbracket]; decide))
          · split at h
            · rename_i hcomma
              obtain ⟨⟨more, rest'⟩, hread, hpair⟩ := Option.map_eq_some_iff.mp h
              rw [← (Prod.mk.inj hpair).2]
              exact (hfirst.trans (Reads.skipped hskip (by rw [hcomma]; decide))).trans
                (ihItems _ _ _ hread)
            · cases h
    · intro input members rest h
      rw [readMembers] at h
      split at h
      · cases h
      · rename_i u tail hskip
        split at h
        · rename_i hquote
          have hspace := reads_skipSpace input
          rw [hskip, hquote] at hspace
          split at h
          · cases h
          · rename_i key afterKey hkey
            have hname := hspace.trans (reads_readString hkey)
            split at h
            · cases h
            · rename_i colon afterColon hskipColon
              split at h
              · rename_i hcolon
                have hpast := hname.trans (Reads.skipped hskipColon (by rw [hcolon]; decide))
                split at h
                · cases h
                · rename_i value afterValue hvalue
                  have hmember := hpast.trans (ihValue _ _ _ hvalue)
                  split at h
                  · cases h
                  · rename_i next afterNext hskipNext
                    split at h
                    · rename_i hbrace
                      rw [← (Prod.mk.inj (Option.some.inj h)).2]
                      exact hmember.trans (Reads.skipped hskipNext (by rw [hbrace]; decide))
                    · split at h
                      · rename_i hcomma
                        obtain ⟨⟨more, rest'⟩, hread, hpair⟩ := Option.map_eq_some_iff.mp h
                        rw [← (Prod.mk.inj hpair).2]
                        exact (hmember.trans (Reads.skipped hskipNext (by rw [hcomma]; decide))).trans
                          (ihMembers _ _ _ hread)
                      · cases h
              · cases h
        · cases h

/-- Every tick of a JSON text stands, on its line, after a quote. -/
theorem quoted_of_parse {input : Text} {value : Json} (h : parse input = some value) : Quoted input := by
  unfold parse at h
  split at h
  · rename_i read rest hread
    split at h
    · rename_i hrest
      have hvalue := (reads_values _).1 _ _ _ hread
      obtain ⟨used, hinput, hused⟩ := hvalue.trans (reads_skipSpace rest)
      rw [hrest, List.append_nil] at hinput
      rw [hinput]
      exact hused
    · exact nomatch h
  · exact nomatch h

/-! ### Lines -/

/-- A line stands between two newlines, or at an end of the text. -/
theorem exists_around_line {text line : Text} (h : line ∈ text.splitOn 10) :
    (10 : UInt16) ∉ line ∧ ∃ front back, text = front ++ line ++ back ∧
      (front = [] ∨ ∃ before, front = before ++ [10]) := by
  induction hn : text.length using Nat.strongRecOn generalizing text with
  | ind n ih =>
    by_cases hmem : (10 : UInt16) ∈ text
    · obtain ⟨first, rest, rfl, hfirst⟩ := List.eq_append_cons_of_mem hmem
      rw [List.splitOn_append_cons_self_of_not_mem hfirst] at h
      rcases List.mem_cons.mp h with hline | hline
      · rw [hline]
        exact ⟨hfirst, [], 10 :: rest, rfl, Or.inl rfl⟩
      · have hlength : rest.length < n := by
          rw [← hn, List.length_append, List.length_cons]
          omega
        obtain ⟨hnewline, front, back, hrest, hfront⟩ := ih rest.length hlength hline rfl
        refine ⟨hnewline, first ++ 10 :: front, back, by rw [hrest]; simp, Or.inr ?_⟩
        rcases hfront with hnil | ⟨before, hbefore⟩
        · exact ⟨first, by rw [hnil]⟩
        · exact ⟨first ++ 10 :: before, by rw [hbefore]; simp⟩
    · rw [List.splitOn_eq_singleton hmem, List.mem_singleton] at h
      rw [h]
      exact ⟨hmem, [], [], by simp, Or.inl rfl⟩

theorem quote_not_mem_spaces (line : Text) : (34 : UInt16) ∉ line.takeWhile (· = 32) := by
  intro h
  have hspace := List.mem_takeWhile_imp h
  exact absurd (of_decide_eq_true hspace) (by decide)

/-- No line of a quoted text starts with a tick. -/
theorem Quoted.line {text line : Text} (h : Quoted text) (hline : line ∈ text.splitOn 10) {u : UInt16}
    (hhead : (line.dropWhile (· = 32)).head? = some u) : isTick u = false := by
  by_contra htick
  rw [Bool.not_eq_false] at htick
  obtain ⟨-, front, back, htext, hfront⟩ := exists_around_line hline
  obtain ⟨more, hmore⟩ := List.head?_eq_some_iff.mp hhead
  have hspaces : line = line.takeWhile (· = 32) ++ u :: more := by
    rw [← hmore, List.takeWhile_append_dropWhile]
  have hwhole : text = (front ++ line.takeWhile (· = 32)) ++ u :: (more ++ back) := by
    rw [htext]
    conv_lhs => rw [hspaces]
    simp
  obtain ⟨before, after, hcut, hafter⟩ := h _ _ _ hwhole htick
  rcases List.append_eq_append_iff.mp hcut with ⟨mid, hbefore, hrest⟩ | ⟨mid, hbefore, hrest⟩
  · have hquote : (34 : UInt16) ∈ line.takeWhile (· = 32) := by
      rw [hrest]
      simp
    exact quote_not_mem_spaces line hquote
  · cases mid with
    | nil =>
      have hquote : (34 : UInt16) ∈ line.takeWhile (· = 32) := by
        rw [List.nil_append] at hrest
        rw [← hrest]
        exact List.mem_cons_self
      exact quote_not_mem_spaces line hquote
    | cons first mid =>
      rw [List.cons_append] at hrest
      obtain ⟨hfirst, htail⟩ := List.cons.inj hrest
      rcases hfront with hnil | ⟨start, hstart⟩
      · rw [hnil] at hbefore
        exact absurd hbefore (by simp)
      · have hlast : (first :: mid).getLast? = some 10 := by
          have hboth := congrArg List.getLast? (hstart.symm.trans hbefore)
          rw [List.getLast?_concat, List.getLast?_append] at hboth
          simpa using hboth.symm
        cases mid with
        | nil =>
          rw [← hfirst] at hlast
          exact absurd (Option.some.inj hlast) (by decide)
        | cons second mid =>
          apply hafter
          rw [htail]
          apply List.mem_append_left
          rw [List.getLast?_cons_cons] at hlast
          exact List.mem_of_getLast? hlast

end Delegatus.JsonText
