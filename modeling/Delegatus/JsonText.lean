import Delegatus.JsStrings

/-!
# JSON over code units

A string of the source language is a list of UTF-16 code units. `quote` writes one as
`JSON.stringify` does, `parse` is `JSON.parse`, and `parse_stringifyStrings` says that a
written list of strings is read back.
-/

namespace Delegatus.JsonText

abbrev Text := List UInt16

/-- The code units of a literal. -/
def units (text : String) : Text := (JsStrings.codeUnits text).map UInt16.ofNat

/-- The units of a literal, from its characters. -/
theorem units_ofList (chars : List Char) :
    units (String.ofList chars) = (chars.flatMap JsStrings.charUnits).map UInt16.ofNat := by
  unfold units JsStrings.codeUnits
  rw [String.toList_ofList]

theorem toNat_units (text : String) : (units text).map UInt16.toNat = JsStrings.codeUnits text := by
  unfold units
  rw [List.map_map]
  conv => rhs; rw [← List.map_id (JsStrings.codeUnits text)]
  apply List.map_congr_left
  intro u hu
  exact UInt16.toNat_ofNat_of_lt (JsStrings.codeUnits_lt hu)

theorem units_injective : Function.Injective units := by
  intro a b h
  apply JsStrings.codeUnits_injective
  rw [← toNat_units, ← toNat_units, h]
/-- A parsed value. A number stays the text it was written as. -/
inductive Json where
  | null
  | bool (value : Bool)
  | number (literal : Text)
  | string (value : Text)
  | array (items : List Json)
  | object (members : List (Text × Json))

/-! ### Equality of values -/

mutual

def Json.beq : Json → Json → Bool
  | .null, .null => true
  | .bool a, .bool b => a = b
  | .number a, .number b => a = b
  | .string a, .string b => a = b
  | .array a, .array b => itemsBeq a b
  | .object a, .object b => membersBeq a b
  | _, _ => false

def itemsBeq : List Json → List Json → Bool
  | [], [] => true
  | a :: as, b :: bs => a.beq b && itemsBeq as bs
  | _, _ => false

def membersBeq : List (Text × Json) → List (Text × Json) → Bool
  | [], [] => true
  | (k, a) :: as, (l, b) :: bs => k = l && a.beq b && membersBeq as bs
  | _, _ => false

end

mutual

theorem Json.beq_iff (a b : Json) : a.beq b = true ↔ a = b := by
  cases a with
  | array a =>
    cases b with
    | array b => simp [Json.beq, itemsBeq_iff a b]
    | _ => simp [Json.beq]
  | object a =>
    cases b with
    | object b => simp [Json.beq, membersBeq_iff a b]
    | _ => simp [Json.beq]
  | _ => cases b <;> simp [Json.beq]

theorem itemsBeq_iff (a b : List Json) : itemsBeq a b = true ↔ a = b := by
  cases a with
  | nil => cases b <;> simp [itemsBeq]
  | cons a as =>
    cases b with
    | nil => simp [itemsBeq]
    | cons b bs => simp [itemsBeq, Json.beq_iff a b, itemsBeq_iff as bs]

theorem membersBeq_iff (a b : List (Text × Json)) : membersBeq a b = true ↔ a = b := by
  cases a with
  | nil => cases b <;> simp [membersBeq]
  | cons a as =>
    obtain ⟨k, a⟩ := a
    cases b with
    | nil => simp [membersBeq]
    | cons b bs =>
      obtain ⟨l, b⟩ := b
      simp [membersBeq, Json.beq_iff a b, membersBeq_iff as bs]

end

instance : DecidableEq Json := fun a b => decidable_of_iff (a.beq b = true) (Json.beq_iff a b)

/-! ### Writing strings -/

def isLead (u : UInt16) : Bool := 0xD800 ≤ u && u ≤ 0xDBFF

def isTrail (u : UInt16) : Bool := 0xDC00 ≤ u && u ≤ 0xDFFF

/-- A lower-case hexadecimal digit. -/
def hexDigit (n : Nat) : UInt16 := UInt16.ofNat (if n < 10 then 48 + n else 87 + n)

/-- `\uXXXX`. -/
def unicodeEscape (u : UInt16) : Text :=
  [92, 117, hexDigit (u.toNat / 4096), hexDigit (u.toNat / 256 % 16), hexDigit (u.toNat / 16 % 16),
    hexDigit (u.toNat % 16)]

/-- The letter of a two-character escape. -/
def escapeLetter (u : UInt16) : Option UInt16 :=
  if u = 8 then some 98
  else if u = 9 then some 116
  else if u = 10 then some 110
  else if u = 12 then some 102
  else if u = 13 then some 114
  else if u = 34 then some 34
  else if u = 92 then some 92
  else none

/-- A code unit that is not half of a surrogate pair. -/
def quoteUnit (u : UInt16) : Text :=
  match escapeLetter u with
  | some letter => [92, letter]
  | none => if u < 32 || isLead u || isTrail u then unicodeEscape u else [u]

def quoteUnits : Text → Text
  | [] => []
  | [u] => quoteUnit u
  | u :: v :: rest =>
    if isLead u && isTrail v then u :: v :: quoteUnits rest
    else quoteUnit u ++ quoteUnits (v :: rest)

/-- `JSON.stringify(text)`. -/
def quote (text : Text) : Text := 34 :: (quoteUnits text ++ [34])

/-- `JSON.stringify` of an array of strings. -/
def stringifyStrings (texts : List Text) : Text :=
  91 :: ([44].intercalate (texts.map quote) ++ [93])

/-! ### Reading values -/

def isSpace (u : UInt16) : Bool := u = 32 || u = 9 || u = 10 || u = 13

def skipSpace (input : Text) : Text := input.dropWhile isSpace

def isDigit (u : UInt16) : Bool := 48 ≤ u && u ≤ 57

def hexValue (u : UInt16) : Option Nat :=
  if isDigit u then some (u.toNat - 48)
  else if 97 ≤ u && u ≤ 102 then some (u.toNat - 87)
  else if 65 ≤ u && u ≤ 70 then some (u.toNat - 55)
  else none

def readHex (a b c d : UInt16) : Option UInt16 := do
  let a ← hexValue a
  let b ← hexValue b
  let c ← hexValue c
  let d ← hexValue d
  return UInt16.ofNat (a * 4096 + b * 256 + c * 16 + d)

/-- What a letter after a backslash stands for, `u` apart. -/
def escapedUnit (letter : UInt16) : Option UInt16 :=
  if letter = 98 then some 8
  else if letter = 116 then some 9
  else if letter = 110 then some 10
  else if letter = 102 then some 12
  else if letter = 114 then some 13
  else if letter = 34 then some 34
  else if letter = 92 then some 92
  else if letter = 47 then some 47
  else none

/-- The rest of a string after its opening quote, with what follows the closing one. -/
def readString : Text → Option (Text × Text)
  | [] => none
  | u :: rest =>
    if u = 34 then some ([], rest)
    else if u = 92 then
      match rest with
      | [] => none
      | letter :: rest =>
        if letter = 117 then
          match rest with
          | a :: b :: c :: d :: rest =>
            match readHex a b c d with
            | some unit => (readString rest).map (fun (text, rest) => (unit :: text, rest))
            | none => none
          | _ => none
        else
          match escapedUnit letter with
          | some unit => (readString rest).map (fun (text, rest) => (unit :: text, rest))
          | none => none
    else if u < 32 then none
    else (readString rest).map (fun (text, rest) => (u :: text, rest))

/-- One digit or more, with what follows them. -/
def readDigits (input : Text) : Option (Text × Text) :=
  let digits := input.takeWhile isDigit
  if digits = [] then none else some (digits, input.dropWhile isDigit)

/-- The digits before the point: `0` alone or no leading zero. -/
def readInteger : Text → Option (Text × Text)
  | [] => none
  | u :: rest => if u = 48 then some ([48], rest) else readDigits (u :: rest)

def readFraction : Text → Option (Text × Text)
  | [] => some ([], [])
  | u :: rest =>
    if u = 46 then (readDigits rest).map (fun (digits, rest) => (46 :: digits, rest))
    else some ([], u :: rest)

def readExponent : Text → Option (Text × Text)
  | [] => some ([], [])
  | e :: rest =>
    if e = 101 || e = 69 then
      match rest with
      | [] => none
      | sign :: digits =>
        if sign = 43 || sign = 45 then
          (readDigits digits).map (fun (digits, rest) => (e :: sign :: digits, rest))
        else (readDigits (sign :: digits)).map (fun (digits, rest) => (e :: digits, rest))
    else some ([], e :: rest)

def readNumber (input : Text) : Option (Text × Text) := do
  let (sign, input) := if input.head? = some 45 then ([45], input.drop 1) else ([], input)
  let (integer, input) ← readInteger input
  let (fraction, input) ← readFraction input
  let (exponent, input) ← readExponent input
  return (sign ++ integer ++ fraction ++ exponent, input)

/-- `true`, `false`, `null` or a number. -/
def readAtom (input : Text) : Option (Json × Text) :=
  if units "true" <+: input then some (.bool true, input.drop 4)
  else if units "false" <+: input then some (.bool false, input.drop 5)
  else if units "null" <+: input then some (.null, input.drop 4)
  else (readNumber input).map (fun (literal, rest) => (.number literal, rest))

/- A nested value comes after a code unit was read, at most two calls deeper, so twice the
   length of the input is fuel enough. -/
mutual

/-- A value and what follows it. -/
def readValue : Nat → Text → Option (Json × Text)
  | 0, _ => none
  | fuel + 1, input =>
    match skipSpace input with
    | [] => none
    | u :: rest =>
      if u = 34 then (readString rest).map (fun (text, rest) => (.string text, rest))
      else if u = 91 then
        if (skipSpace rest).head? = some 93 then some (.array [], (skipSpace rest).drop 1)
        else (readItems fuel rest).map (fun (items, rest) => (.array items, rest))
      else if u = 123 then
        if (skipSpace rest).head? = some 125 then some (.object [], (skipSpace rest).drop 1)
        else (readMembers fuel rest).map (fun (members, rest) => (.object members, rest))
      else readAtom (u :: rest)

/-- The items of an array up to its closing bracket. -/
def readItems : Nat → Text → Option (List Json × Text)
  | 0, _ => none
  | fuel + 1, input =>
    match readValue fuel input with
    | none => none
    | some (item, rest) =>
      match skipSpace rest with
      | [] => none
      | u :: rest =>
        if u = 93 then some ([item], rest)
        else if u = 44 then (readItems fuel rest).map (fun (items, rest) => (item :: items, rest))
        else none

/-- The members of an object up to its closing brace. -/
def readMembers : Nat → Text → Option (List (Text × Json) × Text)
  | 0, _ => none
  | fuel + 1, input =>
    match skipSpace input with
    | [] => none
    | u :: rest =>
      if u = 34 then
        match readString rest with
        | none => none
        | some (key, rest) =>
          match skipSpace rest with
          | [] => none
          | u :: rest =>
            if u = 58 then
              match readValue fuel rest with
              | none => none
              | some (value, rest) =>
                match skipSpace rest with
                | [] => none
                | u :: rest =>
                  if u = 125 then some ([(key, value)], rest)
                  else if u = 44 then
                    (readMembers fuel rest).map
                      (fun (members, rest) => ((key, value) :: members, rest))
                  else none
            else none
      else none

end

/-- `JSON.parse(input)`, none where it throws. -/
def parse (input : Text) : Option Json :=
  match readValue (2 * input.length + 1) input with
  | some (value, rest) => if skipSpace rest = [] then some value else none
  | none => none

/-! ### Written text is printable -/

theorem isLead_plain {u : UInt16} (h : isLead u = true) : u ≠ 34 ∧ u ≠ 92 ∧ ¬u < 32 := by
  simp only [isLead, Bool.and_eq_true, decide_eq_true_eq, UInt16.le_iff_toNat_le,
    UInt16.lt_iff_toNat_lt, ne_eq, ← UInt16.toNat_inj] at h ⊢
  simp only [UInt16.reduceToNat] at h ⊢
  omega

theorem isTrail_plain {u : UInt16} (h : isTrail u = true) : u ≠ 34 ∧ u ≠ 92 ∧ ¬u < 32 := by
  simp only [isTrail, Bool.and_eq_true, decide_eq_true_eq, UInt16.le_iff_toNat_le,
    UInt16.lt_iff_toNat_lt, ne_eq, ← UInt16.toNat_inj] at h ⊢
  simp only [UInt16.reduceToNat] at h ⊢
  omega

theorem hexDigit_printable : ∀ n < 16, ¬hexDigit n < 32 := by decide

theorem unicodeEscape_printable (u : UInt16) : ∀ c ∈ unicodeEscape u, ¬c < 32 := by
  have hu : u.toNat < 65536 := u.toNat_lt
  intro c hc
  simp only [unicodeEscape, List.mem_cons, List.not_mem_nil, or_false] at hc
  obtain rfl | rfl | rfl | rfl | rfl | rfl := hc
  · decide
  · decide
  · exact hexDigit_printable _ (by omega)
  · exact hexDigit_printable _ (by omega)
  · exact hexDigit_printable _ (by omega)
  · exact hexDigit_printable _ (by omega)

theorem escapeLetter_printable {u letter : UInt16} (h : escapeLetter u = some letter) :
    ¬letter < 32 := by
  unfold escapeLetter at h
  split_ifs at h <;> simp at h <;> subst h <;> decide

theorem quoteUnit_printable (u : UInt16) : ∀ c ∈ quoteUnit u, ¬c < 32 := by
  intro c hc
  unfold quoteUnit at hc
  split at hc
  · rename_i letter h
    rcases List.mem_cons.mp hc with rfl | hc
    · decide
    · rw [List.mem_singleton.mp hc]
      exact escapeLetter_printable h
  · split at hc
    · exact unicodeEscape_printable u c hc
    · rename_i hplain
      simp only [Bool.or_eq_true, decide_eq_true_eq, not_or] at hplain
      rw [List.mem_singleton.mp hc]
      exact hplain.1.1

theorem quoteUnits_printable (text : Text) : ∀ c ∈ quoteUnits text, ¬c < 32 := by
  fun_induction quoteUnits text with
  | case1 => simp
  | case2 u => exact quoteUnit_printable u
  | case3 u v tail hpair ih =>
    obtain ⟨hlead, htrail⟩ := Bool.and_eq_true_iff.mp hpair
    intro c hc
    rcases List.mem_cons.mp hc with rfl | hc
    · exact (isLead_plain hlead).2.2
    · rcases List.mem_cons.mp hc with rfl | hc
      · exact (isTrail_plain htrail).2.2
      · exact ih c hc
  | case4 u v tail hpair ih =>
    intro c hc
    rcases List.mem_append.mp hc with hc | hc
    · exact quoteUnit_printable u c hc
    · exact ih c hc

theorem mem_intercalate {separator : Text} {parts : List Text} {c : UInt16}
    (h : c ∈ separator.intercalate parts) : c ∈ separator ∨ ∃ part ∈ parts, c ∈ part := by
  induction parts with
  | nil => simp at h
  | cons part parts ih =>
    cases parts with
    | nil =>
      rw [List.intercalate_singleton] at h
      exact Or.inr ⟨part, List.mem_cons_self, h⟩
    | cons next parts =>
      rw [List.intercalate_cons_cons, List.append_assoc, List.mem_append, List.mem_append] at h
      rcases h with h | h | h
      · exact Or.inr ⟨part, List.mem_cons_self, h⟩
      · exact Or.inl h
      · rcases ih h with h | ⟨other, hother, h⟩
        · exact Or.inl h
        · exact Or.inr ⟨other, List.mem_cons_of_mem _ hother, h⟩

/-- No line break and no other control character stands in what is written. -/
theorem stringifyStrings_printable (texts : List Text) :
    ∀ c ∈ stringifyStrings texts, ¬c < 32 := by
  intro c hc
  rcases List.mem_cons.mp hc with rfl | hc
  · decide
  · rcases List.mem_append.mp hc with hc | hc
    · rcases mem_intercalate hc with hc | ⟨part, hpart, hc⟩
      · rw [List.mem_singleton.mp hc]
        decide
      · obtain ⟨text, -, rfl⟩ := List.mem_map.mp hpart
        rcases List.mem_cons.mp hc with rfl | hc
        · decide
        · rcases List.mem_append.mp hc with hc | hc
          · exact quoteUnits_printable text c hc
          · rw [List.mem_singleton.mp hc]
            decide
    · rw [List.mem_singleton.mp hc]
      decide

/-! ### What is written is read back -/

theorem hexValue_hexDigit : ∀ n < 16, hexValue (hexDigit n) = some n := by decide

/-- The four digits of a code unit name it. -/
theorem readHex_unicodeEscape (u : UInt16) :
    readHex (hexDigit (u.toNat / 4096)) (hexDigit (u.toNat / 256 % 16))
      (hexDigit (u.toNat / 16 % 16)) (hexDigit (u.toNat % 16)) = some u := by
  have hu : u.toNat < 65536 := u.toNat_lt
  unfold readHex
  rw [hexValue_hexDigit _ (by omega), hexValue_hexDigit _ (by omega),
    hexValue_hexDigit _ (by omega), hexValue_hexDigit _ (by omega)]
  have hsum : u.toNat / 4096 * 4096 + u.toNat / 256 % 16 * 256 + u.toNat / 16 % 16 * 16 +
      u.toNat % 16 = u.toNat := by omega
  simp only [Option.bind_eq_bind, Option.bind_some, Option.pure_def, hsum]
  rw [UInt16.ofNat_toNat]

theorem readString_close (rest : Text) : readString (34 :: rest) = some ([], rest) := by
  rw [readString.eq_def]
  simp

theorem readString_unicodeEscape (u : UInt16) (rest : Text) :
    readString (unicodeEscape u ++ rest) =
      (readString rest).map (fun (text, rest) => (u :: text, rest)) := by
  rw [readString.eq_def]
  simp [unicodeEscape, readHex_unicodeEscape]

theorem readString_letter {u letter : UInt16} (rest : Text) (hletter : letter ≠ 117)
    (hunit : escapedUnit letter = some u) :
    readString (92 :: letter :: rest) =
      (readString rest).map (fun (text, rest) => (u :: text, rest)) := by
  rw [readString.eq_def]
  simp [hletter, hunit]

theorem escapeLetter_spec {u letter : UInt16} (h : escapeLetter u = some letter) :
    letter ≠ 117 ∧ escapedUnit letter = some u := by
  unfold escapeLetter at h
  split_ifs at h with h1 h2 h3 h4 h5 h6 h7 <;> simp at h <;> subst h <;> subst u <;> decide

/-- A code unit that needs no escape. -/
theorem readString_plain {u : UInt16} (rest : Text) (hquote : u ≠ 34) (hslash : u ≠ 92)
    (hcontrol : ¬u < 32) :
    readString (u :: rest) = (readString rest).map (fun (text, rest) => (u :: text, rest)) := by
  rw [readString.eq_def]
  simp [hquote, hslash, hcontrol]

theorem readString_quoteUnit (u : UInt16) (rest : Text) :
    readString (quoteUnit u ++ rest) =
      (readString rest).map (fun (text, rest) => (u :: text, rest)) := by
  unfold quoteUnit
  split
  · rename_i letter h
    obtain ⟨hletter, hunit⟩ := escapeLetter_spec h
    exact readString_letter rest hletter hunit
  · rename_i h
    split
    · exact readString_unicodeEscape u rest
    · rename_i hplain
      have hquote : u ≠ 34 := by
        intro hu
        simp [hu, escapeLetter] at h
      have hslash : u ≠ 92 := by
        intro hu
        simp [hu, escapeLetter] at h
      simp only [Bool.or_eq_true, decide_eq_true_eq, not_or] at hplain
      exact readString_plain rest hquote hslash hplain.1.1

/-- Whatever the code units of a string are, lone surrogates and control characters
    included, reading its quoted form gives them back and stops at the closing quote. -/
theorem readString_quoteUnits (text rest : Text) :
    readString (quoteUnits text ++ 34 :: rest) = some (text, rest) := by
  fun_induction quoteUnits text with
  | case1 => exact readString_close rest
  | case2 u =>
    rw [readString_quoteUnit, readString_close]
    rfl
  | case3 u v tail hpair ih =>
    obtain ⟨hlead, htrail⟩ := Bool.and_eq_true_iff.mp hpair
    obtain ⟨hu1, hu2, hu3⟩ := isLead_plain hlead
    obtain ⟨hv1, hv2, hv3⟩ := isTrail_plain htrail
    rw [List.cons_append, List.cons_append, readString_plain _ hu1 hu2 hu3,
      readString_plain _ hv1 hv2 hv3, ih]
    rfl
  | case4 u v tail hpair ih =>
    rw [List.append_assoc, readString_quoteUnit, ih]
    rfl

theorem skipSpace_cons {u : UInt16} (rest : Text) (h : isSpace u = false) :
    skipSpace (u :: rest) = u :: rest := by
  simp [skipSpace, h]

theorem readValue_quote (fuel : Nat) (text rest : Text) :
    readValue (fuel + 1) (quote text ++ rest) = some (.string text, rest) := by
  have hquote : quote text ++ rest = 34 :: (quoteUnits text ++ 34 :: rest) := by
    simp [quote]
  rw [hquote, readValue, skipSpace_cons _ (by decide)]
  simp [readString_quoteUnits]

/-- Strings with commas between them, up to the closing bracket. -/
theorem readItems_quotes (text : Text) (texts : List Text) (fuel : Nat) (rest : Text)
    (hfuel : texts.length + 2 ≤ fuel) :
    readItems fuel ([44].intercalate ((text :: texts).map quote) ++ 93 :: rest) =
      some ((text :: texts).map Json.string, rest) := by
  induction texts generalizing text fuel with
  | nil =>
    obtain ⟨fuel, rfl⟩ : ∃ n, fuel = n + 2 := ⟨fuel - 2, by simp at hfuel; omega⟩
    have htext : [44].intercalate ([text].map quote) ++ 93 :: rest = quote text ++ 93 :: rest := by
      simp
    rw [htext, readItems, readValue_quote]
    simp [skipSpace_cons rest (u := 93) (by decide)]
  | cons next texts ih =>
    rw [List.length_cons] at hfuel
    obtain ⟨fuel, rfl⟩ : ∃ n, fuel = n + 2 := ⟨fuel - 2, by omega⟩
    have htail := ih next (fuel + 1) (by omega)
    have htext : [44].intercalate ((text :: next :: texts).map quote) ++ 93 :: rest =
        quote text ++ 44 :: ([44].intercalate ((next :: texts).map quote) ++ 93 :: rest) := by
      rw [List.map_cons, List.map_cons, List.intercalate_cons_cons]
      simp
    rw [htext, readItems, readValue_quote]
    simp only [skipSpace_cons _ (u := 44) (by decide)]
    rw [htail]
    rfl

theorem length_le_intercalate (separator : UInt16) (parts : List Text) :
    parts.length ≤ ([separator].intercalate parts).length + 1 := by
  induction parts with
  | nil => simp
  | cons part parts ih =>
    cases parts with
    | nil => simp
    | cons next parts =>
      rw [List.intercalate_cons_cons]
      simp only [List.length_cons, List.length_append] at ih ⊢
      omega

/-- A list of strings is read back as it was written. -/
theorem parse_stringifyStrings (texts : List Text) :
    parse (stringifyStrings texts) = some (.array (texts.map Json.string)) := by
  unfold parse
  cases texts with
  | nil => rfl
  | cons text texts =>
    have hlength := length_le_intercalate 44 ((text :: texts).map quote)
    have hsize : (stringifyStrings (text :: texts)).length =
        ([44].intercalate ((text :: texts).map quote)).length + 2 := by
      simp [stringifyStrings]
    rw [List.length_map, List.length_cons] at hlength
    have hitems := readItems_quotes text texts (2 * (stringifyStrings (text :: texts)).length) []
      (by omega)
    have hfirst : [44].intercalate ((text :: texts).map quote) =
        34 :: [44].intercalate ((quoteUnits text ++ [34]) :: texts.map quote) :=
      List.intercalate_cons_cons_left
    generalize hfuel : 2 * (stringifyStrings (text :: texts)).length = fuel at hitems ⊢
    rw [hfirst, List.cons_append] at hitems
    unfold stringifyStrings
    rw [readValue, skipSpace_cons _ (u := 91) (by decide), hfirst]
    simp only [List.cons_append]
    rw [skipSpace_cons _ (u := 34) (by decide), hitems]
    rfl

end Delegatus.JsonText
