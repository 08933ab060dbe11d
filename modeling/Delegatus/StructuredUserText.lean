import Delegatus.Base64
import Delegatus.DeliveryDedup

/-!
# Structured user texts

A delivery stamps its text with a marker line whose attributes name a durable reference.
`encodeCodexStructuredUserText` writes the line, and `decodeCodexStructuredUserText` reads it off the
front of any text, with the attributes that earlier deliveries wrote.  `structured_user_text_round_trip`
says that the text and the reference come back, whatever the text begins with.

The patterns have one way to match, so a reader that never goes back stands for them.  What an older
context token decodes to is a parameter.
-/

namespace Delegatus.StructuredUserText

open JsonText

/-! ### References -/

/-- `[a-f0-9]` -/
def isHexUnit (u : UInt16) : Bool := (97 ≤ u && u ≤ 102) || (48 ≤ u && u ≤ 57)

/-- `SHA256.test(text)` -/
def isSha256 (text : Text) : Bool := decide (text.length = 64) && text.all isHexUnit

/-- `[A-Za-z0-9_-]` -/
def isUrlUnit (u : UInt16) : Bool :=
  (65 ≤ u && u ≤ 90) || (97 ≤ u && u ≤ 122) || (48 ≤ u && u ≤ 57) || u = 95 || u = 45

def DOT : UInt16 := 46

/-- The pattern of a reference. -/
def isReference (value : Text) : Bool :=
  match value.splitOn DOT with
  | [form, key] => decide (form = units "d" ∨ form = units "h") && decide (key.length = 43) && key.all isUrlUnit
  | [form, key, fingerprint] =>
    decide (form = units "o" ∨ form = units "a" ∨ form = units "d") && decide (key.length = 43) && key.all isUrlUnit &&
      decide (fingerprint.length = 16) && fingerprint.all isUrlUnit
  | _ => false

/-- `parseInt(byte, 16)` of each pair of digits. -/
def bytesOfHex : Text → List UInt8
  | high :: low :: rest =>
    UInt8.ofNat ((hexValue high).getD 0 * 16 + (hexValue low).getD 0) :: bytesOfHex rest
  | _ => []

/-- `+` and `/` become `-` and `_`. -/
def toUrl (u : UInt16) : UInt16 := if u = 43 then 45 else if u = 47 then 95 else u

def fromUrl (u : UInt16) : UInt16 := if u = 45 then 43 else if u = 95 then 47 else u

/-- `none` is the error of a key that is no digest. -/
def structuredUserReference (key : Text) (delivery : Bool) : Option Text :=
  if isSha256 key then
    let encodedKey := ((Base64.btoa (bytesOfHex key)).map toUrl).rdropWhile (· = Base64.PAD)
    some (units (if delivery then "d" else "h") ++ DOT :: encodedKey)
  else none

def structuredUserReferenceKey (value : Text) : Option Text :=
  if isReference value then
    let encodedKey := (value.splitOn DOT).getD 1 []
    match Base64.atob (encodedKey.map fromUrl ++ [Base64.PAD]) with
    | none => none
    | some binary =>
      let key := binary.flatMap DeliveryDedup.hexByte
      if decide (binary.length = 32) && decide ((structuredUserReference key true).map (·.drop 2) = some encodedKey) then
        some key
      else none
  else none

/-! ### Origins -/

inductive OriginKind
  | operator
  | agent
deriving DecidableEq

def OriginKind.text : OriginKind → Text
  | operator => units "operator"
  | agent => units "agent"

structure MessageOrigin where
  kind : OriginKind
  role : Option Text

/-- `[A-Za-z0-9_.:-]{1,64}` -/
def messageOriginRole (value : Text) : Option Text :=
  if value ≠ [] ∧ value.length ≤ 64 ∧ value.all fun u => isUrlUnit u || u = 46 || u = 58 then some value else none

/-! ### Markers -/

def MARKER : Text := units "<!-- llv:structured-user"

def CLOSE : Text := units " -->"

/-- `[a-z0-9]` -/
def isNameUnit (u : UInt16) : Bool := (97 ≤ u && u ≤ 122) || (48 ≤ u && u ≤ 57)

/-- `[^ >]` -/
def isValueUnit (u : UInt16) : Bool := u ≠ 32 && u ≠ 62

structure Attribute where
  name : Text
  value : Text

/-- ` name=value` at the start of a text, and the text after it. -/
def readAttribute : Text → Option (Attribute × Text)
  | [] => none
  | space :: rest =>
    let name := rest.takeWhile isNameUnit
    match rest.drop name.length with
    | [] => none
    | equals :: tail =>
      let value := tail.takeWhile isValueUnit
      if space = 32 ∧ equals = 61 ∧ name ≠ [] ∧ value ≠ [] then some (⟨name, value⟩, tail.drop value.length) else none

/-- The attributes at the start of a text: at most `limit`, which is never fewer than its length. -/
def readAttributes : ℕ → Text → List Attribute × Text
  | 0, text => ([], text)
  | limit + 1, text =>
    match readAttribute text with
    | none => ([], text)
    | some (item, rest) =>
      let (attributes, rest) := readAttributes limit rest
      (item :: attributes, rest)

/-- The text without this front. -/
def strip (front text : Text) : Option Text := if front.isPrefixOf text then some (text.drop front.length) else none

/-- The end of a marker, at a line break or the end of the text. -/
def readClose (text : Text) : Option Text :=
  match strip CLOSE text with
  | none => none
  | some [] => some []
  | some (u :: rest) => if u = 10 then some rest else none

/-- `value.match(MARKER_WITH_ATTRIBUTES)`: the attributes and the text after the match. -/
def markerWithAttributes (value : Text) : Option (List Attribute × Text) :=
  match strip MARKER value with
  | none => none
  | some rest =>
    match readAttributes rest.length rest with
    | ([], _) => none
    | (attributes, rest) => (readClose rest).map fun rest => (attributes, rest)

/-- `value.match(BARE_MARKER)`: the text after the match. -/
def bareMarker (value : Text) : Option Text := (strip MARKER value).bind readClose

/-! ### The codec -/

structure Decoded (σ : Type) where
  text : Text
  structured : Bool
  contentDigest : Option Text
  selectedContext : Option σ
  origin : Option MessageOrigin
  deliveryDedup : Option Text
  metadataRef : Option Text

/-- `none` is the error of an invalid reference. -/
def encodeCodexStructuredUserText (text metadataRef : Text) (origin : Option MessageOrigin) : Option Text :=
  if (structuredUserReferenceKey metadataRef).isSome then
    let originAttribute := if (metadataRef.splitOn DOT).length = 2 then
      origin.elim [] fun origin => units " origin=" ++ origin.kind.text else []
    some (MARKER ++ units " ctx=" ++ metadataRef ++ originAttribute ++ CLOSE ++ 10 :: text)
  else none

/-- What the attributes gave so far. -/
structure Reading (σ : Type) where
  contentDigest : Option Text
  selectedContext : Option σ
  originKind : Option OriginKind
  senderRole : Option Text
  deliveryDedup : Option Text
  metadataRef : Option Text

variable {σ : Type} (decodeSelectedContextRef : Text → Option σ)

/-- What one attribute gives. -/
def Reading.read (reading : Reading σ) (item : Attribute) : Reading σ :=
  let reading := if item.name = units "sha256" ∧ isSha256 item.value then
    { reading with contentDigest := some item.value } else reading
  let reading := if item.name = units "ctx" then
      match structuredUserReferenceKey item.value with
      | some key =>
        let reading := { reading with metadataRef := some item.value }
        let reading := if item.value.take 2 ≠ units "h." then { reading with deliveryDedup := some key } else reading
        let reading := if item.value.take 2 = units "o." then { reading with originKind := some .operator } else reading
        if item.value.take 2 = units "a." then { reading with originKind := some .agent } else reading
      | none => { reading with selectedContext := decodeSelectedContextRef item.value }
    else reading
  let reading := if item.name = units "origin" ∧ item.value = OriginKind.operator.text then
      { reading with originKind := some .operator }
    else if item.name = units "origin" ∧ item.value = OriginKind.agent.text then
      { reading with originKind := some .agent }
    else reading
  let reading := if item.name = units "sender" then
    { reading with senderRole := messageOriginRole item.value } else reading
  if item.name = units "dedup" ∧ isSha256 item.value then
    { reading with deliveryDedup := some item.value } else reading

def decodeCodexStructuredUserText (value : Text) : Decoded σ :=
  match markerWithAttributes value with
  | some (attributes, text) =>
    let reading := attributes.foldl (Reading.read decodeSelectedContextRef) ⟨none, none, none, none, none, none⟩
    { text := text
      structured := true
      contentDigest := reading.contentDigest
      selectedContext := reading.selectedContext
      origin := reading.originKind.map fun kind => ⟨kind, if kind = .agent then reading.senderRole else none⟩
      deliveryDedup := reading.deliveryDedup
      metadataRef := reading.metadataRef }
  | none =>
    match bareMarker value with
    | none => ⟨value, false, none, none, none, none, none⟩
    | some text => ⟨text, true, none, none, none, none, none⟩

/-! ### Keys and references -/

theorem hexUnit_digit {u : UInt16} (h : isHexUnit u = true) : ∃ n < 16, u = hexDigit n := by
  unfold isHexUnit at h
  simp only [Bool.or_eq_true, Bool.and_eq_true, decide_eq_true_eq, UInt16.le_iff_toNat_le, UInt16.reduceToNat] at h
  rcases h with h | h
  · refine ⟨u.toNat - 87, by omega, ?_⟩
    unfold hexDigit
    rw [if_neg (by omega), Nat.add_sub_cancel' (by omega), UInt16.ofNat_toNat]
  · refine ⟨u.toNat - 48, by omega, ?_⟩
    unfold hexDigit
    rw [if_pos (by omega), Nat.add_sub_cancel' (by omega), UInt16.ofNat_toNat]

theorem hexByte_pair {n m : ℕ} (hn : n < 16) (hm : m < 16) :
    DeliveryDedup.hexByte (UInt8.ofNat (n * 16 + m)) = [hexDigit n, hexDigit m] := by
  unfold DeliveryDedup.hexByte
  rw [UInt8.toNat_ofNat', Nat.mod_eq_of_lt (by omega), (by omega : (n * 16 + m) / 16 = n), (by omega : (n * 16 + m) % 16 = m)]

/-- The digits of the bytes of a key are the key. -/
theorem hex_bytesOfHex {key : Text} {n : ℕ} (hlength : key.length = 2 * n) (hkey : ∀ u ∈ key, isHexUnit u = true) :
    (bytesOfHex key).flatMap DeliveryDedup.hexByte = key ∧ (bytesOfHex key).length = n := by
  induction n generalizing key with
  | zero =>
    obtain rfl := List.eq_nil_of_length_eq_zero hlength
    exact ⟨rfl, rfl⟩
  | succ n ih =>
    match key, hlength with
    | high :: low :: rest, hlength =>
      obtain ⟨n, hn, rfl⟩ := hexUnit_digit (hkey high List.mem_cons_self)
      obtain ⟨m, hm, rfl⟩ := hexUnit_digit (hkey low (List.mem_cons_of_mem _ List.mem_cons_self))
      obtain ⟨hrest, hcount⟩ := ih (by rw [List.length_cons, List.length_cons] at hlength; omega)
        fun u hu => hkey u (List.mem_cons_of_mem _ (List.mem_cons_of_mem _ hu))
      rw [bytesOfHex, hexValue_hexDigit n hn, hexValue_hexDigit m hm, Option.getD_some, Option.getD_some,
        List.flatMap_cons, hexByte_pair hn hm, hrest, List.length_cons, hcount]
      exact ⟨rfl, rfl⟩

theorem url_digit : ∀ n < 64, fromUrl (toUrl (Base64.digit n)) = Base64.digit n ∧
    isUrlUnit (toUrl (Base64.digit n)) = true := by
  decide

/-- A key in the alphabet of addresses. -/
def encodedKey (bytes : List UInt8) : Text := (Base64.toDigits bytes).map toUrl

theorem encodedKey_eq (bytes : List UInt8) :
    ((Base64.btoa bytes).map toUrl).rdropWhile (· = Base64.PAD) = encodedKey bytes := by
  have htest : ∀ u, (toUrl u = Base64.PAD) ↔ u = Base64.PAD := by
    intro u
    unfold toUrl Base64.PAD
    by_cases hplus : u = 43
    · subst hplus; decide
    · rw [if_neg hplus]
      by_cases hslash : u = 47
      · subst hslash; decide
      · rw [if_neg hslash]
  have hcomp : ((fun u : UInt16 => decide (u = Base64.PAD)) ∘ toUrl) = fun u => decide (u = Base64.PAD) := by
    funext u
    exact decide_eq_decide.mpr (htest u)
  unfold List.rdropWhile
  rw [← List.map_reverse, List.dropWhile_map, hcomp, ← List.map_reverse]
  unfold encodedKey
  rw [← Base64.rdropWhile_btoa]
  exact rfl

theorem fromUrl_encodedKey (bytes : List UInt8) : (encodedKey bytes).map fromUrl = Base64.toDigits bytes := by
  unfold encodedKey
  rw [List.map_map]
  conv_rhs => rw [← List.map_id (Base64.toDigits bytes)]
  apply List.map_congr_left
  intro u hu
  obtain ⟨n, hn, rfl⟩ := Base64.toDigits_all bytes u hu
  exact (url_digit n hn).1

theorem isUrlUnit_encodedKey (bytes : List UInt8) : (encodedKey bytes).all isUrlUnit = true := by
  rw [List.all_eq_true]
  intro u hu
  obtain ⟨digit, hdigit, rfl⟩ := List.mem_map.mp hu
  obtain ⟨n, hn, rfl⟩ := Base64.toDigits_all bytes digit hdigit
  exact (url_digit n hn).2

theorem dot_not_mem {text : Text} (h : text.all isUrlUnit = true) : DOT ∉ text := by
  intro hmem
  exact absurd (List.all_eq_true.mp h DOT hmem) (by decide)

theorem intercalate_two (form key : Text) : [DOT].intercalate [form, key] = form ++ DOT :: key := by
  simp [List.intercalate]

theorem splitOn_reference (form : Text) {key : Text} (hform : form.all isUrlUnit = true) (hkey : key.all isUrlUnit = true) :
    (form ++ DOT :: key).splitOn DOT = [form, key] := by
  have hparts : ∀ part ∈ [form, key], DOT ∉ part := by
    intro part hpart
    rcases List.mem_cons.mp hpart with rfl | hpart
    · exact dot_not_mem hform
    · obtain rfl := List.mem_singleton.mp hpart
      exact dot_not_mem hkey
  have hsplit := List.splitOn_intercalate DOT hparts (List.cons_ne_nil form [key])
  rw [intercalate_two] at hsplit
  exact hsplit

theorem isSha256_iff {key : Text} : isSha256 key = true ↔ key.length = 64 ∧ ∀ u ∈ key, isHexUnit u = true := by
  unfold isSha256
  rw [Bool.and_eq_true, decide_eq_true_eq, List.all_eq_true]

theorem structuredUserReference_eq {key : Text} (h : isSha256 key = true) (delivery : Bool) :
    structuredUserReference key delivery =
      some (units (if delivery then "d" else "h") ++ DOT :: encodedKey (bytesOfHex key)) := by
  unfold structuredUserReference
  rw [if_pos h]
  dsimp only
  rw [encodedKey_eq]

/-- **The key of a reference** is the key that it was made of. -/
theorem key_of_reference {key : Text} (h : isSha256 key = true) (delivery : Bool) :
    ∃ reference, structuredUserReference key delivery = some reference ∧
      structuredUserReferenceKey reference = some key := by
  obtain ⟨hlength, hunits⟩ := isSha256_iff.mp h
  obtain ⟨hhex, hbytes⟩ := hex_bytesOfHex (n := 32) hlength hunits
  have hdigits : (Base64.toDigits (bytesOfHex key)).length = 43 := by rw [Base64.length_toDigits, hbytes]
  have hsplit : (units (if delivery then "d" else "h") ++ DOT :: encodedKey (bytesOfHex key)).splitOn DOT =
      [units (if delivery then "d" else "h"), encodedKey (bytesOfHex key)] := by
    apply splitOn_reference
    · cases delivery <;> decide
    · exact isUrlUnit_encodedKey _
  refine ⟨_, structuredUserReference_eq h delivery, ?_⟩
  have hreference : isReference (units (if delivery then "d" else "h") ++ DOT :: encodedKey (bytesOfHex key)) = true := by
    unfold isReference
    rw [hsplit]
    dsimp only
    rw [isUrlUnit_encodedKey, Bool.and_true, Bool.and_eq_true, decide_eq_true_eq, decide_eq_true_eq]
    refine ⟨?_, by rw [encodedKey, List.length_map, hdigits]⟩
    cases delivery
    · exact Or.inr rfl
    · exact Or.inl rfl
  unfold structuredUserReferenceKey
  have hsecond : ((units (if delivery then "d" else "h") ++ DOT :: encodedKey (bytesOfHex key)).splitOn DOT).getD 1 [] =
      encodedKey (bytesOfHex key) := by
    rw [hsplit]
    exact rfl
  dsimp only
  rw [if_pos hreference, hsecond, fromUrl_encodedKey, Base64.atob_pad (by rw [hdigits])]
  dsimp only
  rw [hhex, structuredUserReference_eq h true, hbytes]
  exact if_pos (Bool.and_eq_true_iff.mpr ⟨decide_eq_true rfl, decide_eq_true rfl⟩)

/-- What an accepted reference is like. -/
theorem reference_parts {reference key : Text} (h : structuredUserReferenceKey reference = some key) :
    isReference reference = true ∧
      (structuredUserReference key true).map (·.drop 2) = some ((reference.splitOn DOT).getD 1 []) := by
  unfold structuredUserReferenceKey at h
  split at h
  · rename_i hreference
    refine ⟨hreference, ?_⟩
    dsimp only at h
    split at h
    · exact absurd h nofun
    · split at h
      · rename_i hcheck
        obtain rfl := Option.some.inj h
        exact of_decide_eq_true (Bool.and_eq_true_iff.mp hcheck).2
      · exact absurd h nofun
  · exact absurd h nofun

/-- **The reference of a key** is the two-part reference that gave it. -/
theorem reference_of_key {reference key : Text} (h : structuredUserReferenceKey reference = some key)
    (htwo : (reference.splitOn DOT).length = 2) :
    structuredUserReference key (decide (reference.take 2 = units "d.")) = some reference := by
  obtain ⟨hreference, hcheck⟩ := reference_parts h
  have hsha : isSha256 key = true := by
    by_contra hnot
    rw [structuredUserReference, if_neg hnot] at hcheck
    exact absurd hcheck nofun
  match hsplit : reference.splitOn DOT, htwo with
  | [form, encoded], _ =>
    have hwhole : reference = form ++ DOT :: encoded := by
      rw [← intercalate_two, ← hsplit, List.intercalate_splitOn]
    rw [structuredUserReference_eq hsha, hsplit, Option.map_some, Option.some.injEq] at hcheck
    rw [structuredUserReference_eq hsha, ← (show encodedKey (bytesOfHex key) = encoded from hcheck)] at *
    unfold isReference at hreference
    rw [hsplit] at hreference
    dsimp only at hreference
    rw [Bool.and_assoc, Bool.and_eq_true, decide_eq_true_eq] at hreference
    rw [hwhole]
    rcases hreference.1 with rfl | rfl
    · exact congrArg some rfl
    · exact congrArg some rfl

/-! ### Markers -/

structure Attribute.Valid (item : Attribute) : Prop where
  name : item.name ≠ [] ∧ item.name.all isNameUnit = true
  value : item.value ≠ [] ∧ item.value.all isValueUnit = true

def Attribute.written (item : Attribute) : Text := 32 :: item.name ++ 61 :: item.value

/-- A text that begins with a marker, of any generation. -/
def Marked (value : Text) : Prop :=
  ∃ attributes : List Attribute, (∀ item ∈ attributes, item.Valid) ∧ ∃ rest,
    value = MARKER ++ (attributes.flatMap Attribute.written ++ (CLOSE ++ rest)) ∧
      (rest = [] ∨ rest.head? = some 10)

theorem takeWhile_stop {test : UInt16 → Bool} {front : Text} (hfront : front.all test = true) {u : UInt16}
    (hstop : test u = false) (rest : Text) : (front ++ u :: rest).takeWhile test = front := by
  rw [List.takeWhile_append_of_pos (List.all_eq_true.mp hfront), List.takeWhile_cons_of_neg (by rw [hstop]; exact Bool.false_ne_true),
    List.append_nil]

theorem readAttribute_written {item : Attribute} (h : item.Valid) (rest : Text) :
    readAttribute (item.written ++ 32 :: rest) = some (item, 32 :: rest) := by
  have hname := takeWhile_stop h.name.2 (by decide : isNameUnit 61 = false) (item.value ++ 32 :: rest)
  have hvalue := takeWhile_stop h.value.2 (by decide : isValueUnit 32 = false) rest
  have htext : item.written ++ 32 :: rest = 32 :: (item.name ++ 61 :: (item.value ++ 32 :: rest)) := by
    unfold Attribute.written
    rw [List.append_assoc, List.cons_append, List.cons_append]
  rw [htext]
  unfold readAttribute
  dsimp only
  rw [hname, List.drop_left]
  dsimp only
  rw [hvalue, List.drop_left, if_pos ⟨rfl, rfl, h.name.1, h.value.1⟩]

theorem readAttribute_close (rest : Text) : readAttribute (CLOSE ++ rest) = none := by
  have htext : CLOSE ++ rest = 32 :: 45 :: (units "->" ++ rest) := rfl
  rw [htext]
  unfold readAttribute
  dsimp only
  rw [List.takeWhile_cons_of_neg (by decide), List.length_nil, List.drop_zero]
  exact if_neg fun h => h.2.2.1 rfl

theorem readAttributes_written {attributes : List Attribute} (h : ∀ item ∈ attributes, item.Valid) {limit : ℕ}
    (hlimit : attributes.length ≤ limit) (rest : Text) :
    readAttributes limit (attributes.flatMap Attribute.written ++ (CLOSE ++ rest)) = (attributes, CLOSE ++ rest) := by
  induction attributes generalizing limit with
  | nil =>
    cases limit with
    | zero => exact rfl
    | succ limit => rw [List.flatMap_nil, List.nil_append, readAttributes, readAttribute_close]
  | cons item attributes ih =>
    obtain ⟨limit, rfl⟩ := Nat.exists_eq_add_one_of_ne_zero (Nat.ne_of_gt (Nat.lt_of_lt_of_le (Nat.succ_pos _) hlimit))
    have hnext : ∃ tail, attributes.flatMap Attribute.written ++ (CLOSE ++ rest) = 32 :: tail := by
      cases attributes with
      | nil => exact ⟨_, rfl⟩
      | cons next attributes => exact ⟨_, rfl⟩
    obtain ⟨tail, htail⟩ := hnext
    have hrest := ih (fun other hother => h other (List.mem_cons_of_mem _ hother)) (Nat.le_of_succ_le_succ hlimit)
    rw [List.flatMap_cons, List.append_assoc, htail, readAttributes,
      readAttribute_written (h item List.mem_cons_self)]
    dsimp only
    rw [← htail, hrest]

theorem strip_append (front rest : Text) : strip front (front ++ rest) = some rest := by
  unfold strip
  rw [if_pos (by simp), List.drop_left]

theorem strip_eq_some {front text rest : Text} (h : strip front text = some rest) : text = front ++ rest := by
  unfold strip at h
  split at h
  · rename_i hfront
    obtain ⟨tail, rfl⟩ := List.isPrefixOf_iff_prefix.mp hfront
    rw [List.drop_left, Option.some.injEq] at h
    rw [h]
  · exact absurd h nofun

theorem readClose_eq_some {text rest : Text} (h : readClose text = some rest) :
    ∃ tail, text = CLOSE ++ tail ∧ (tail = [] ∨ tail.head? = some 10) := by
  unfold readClose at h
  split at h
  · exact absurd h nofun
  · rename_i hclose
    exact ⟨[], strip_eq_some hclose, Or.inl rfl⟩
  · rename_i u tail hclose
    split at h
    · rename_i hbreak
      exact ⟨u :: tail, strip_eq_some hclose, Or.inr (congrArg some hbreak)⟩
    · exact absurd h nofun

theorem readClose_newline (text : Text) : readClose (CLOSE ++ 10 :: text) = some text := by
  unfold readClose
  rw [strip_append]
  exact if_pos rfl

theorem readAttribute_eq_some {text rest : Text} {item : Attribute} (h : readAttribute text = some (item, rest)) :
    item.Valid ∧ text = item.written ++ rest := by
  cases text with
  | nil => exact absurd h nofun
  | cons space tail =>
    unfold readAttribute at h
    dsimp only at h
    split at h
    · exact absurd h nofun
    · rename_i equals others hothers
      split at h
      · rename_i hread
        obtain ⟨rfl, rfl, hname, hvalue⟩ := hread
        obtain ⟨rfl, rfl⟩ := Prod.mk.inj (Option.some.inj h)
        refine ⟨⟨⟨hname, List.all_takeWhile⟩, ⟨hvalue, List.all_takeWhile⟩⟩, ?_⟩
        have hfront : ∀ (test : UInt16 → Bool) (text : Text),
            text = text.takeWhile test ++ text.drop (text.takeWhile test).length := by
          intro test text
          conv_lhs => rw [← List.take_append_drop (text.takeWhile test).length text]
          rw [← List.prefix_iff_eq_take.mp (List.takeWhile_prefix test)]
        unfold Attribute.written
        conv_lhs => rw [hfront isNameUnit tail, hothers, hfront isValueUnit others]
        rw [List.append_assoc, List.cons_append, List.cons_append]
      · exact absurd h nofun

theorem readAttributes_spec {limit : ℕ} {text rest : Text} {attributes : List Attribute}
    (h : readAttributes limit text = (attributes, rest)) :
    (∀ item ∈ attributes, item.Valid) ∧ text = attributes.flatMap Attribute.written ++ rest := by
  induction limit generalizing text attributes with
  | zero =>
    obtain ⟨rfl, rfl⟩ := Prod.mk.inj h
    exact ⟨fun _ hmem => absurd hmem List.not_mem_nil, rfl⟩
  | succ limit ih =>
    rw [readAttributes] at h
    cases hread : readAttribute text with
    | none =>
      rw [hread] at h
      obtain ⟨rfl, rfl⟩ := Prod.mk.inj h
      exact ⟨fun _ hmem => absurd hmem List.not_mem_nil, rfl⟩
    | some pair =>
      obtain ⟨item, tail⟩ := pair
      rw [hread] at h
      obtain ⟨hvalid, rfl⟩ := readAttribute_eq_some hread
      obtain ⟨rfl, rfl⟩ := Prod.mk.inj h
      obtain ⟨hall, htail⟩ := @ih tail _ rfl
      refine ⟨List.forall_mem_cons.mpr ⟨hvalid, hall⟩, ?_⟩
      conv_lhs => rw [htail]
      rw [List.flatMap_cons, List.append_assoc]

/-! ### Round trips -/

variable (decodeContext : Text → Option σ)

/-- A text without a marker stays as it is. -/
theorem decode_unmarked {value : Text} (h : ¬Marked value) :
    decodeCodexStructuredUserText decodeContext value = ⟨value, false, none, none, none, none, none⟩ := by
  have hattributes : markerWithAttributes value = none := by
    by_contra hsome
    obtain ⟨⟨attributes, text⟩, hread⟩ := Option.ne_none_iff_exists'.mp hsome
    unfold markerWithAttributes at hread
    split at hread
    · exact absurd hread nofun
    · rename_i rest hstrip
      split at hread
      · exact absurd hread nofun
      · rename_i attributes' rest' hne hread'
        obtain ⟨text', hclose, -⟩ := Option.map_eq_some_iff.mp hread
        obtain ⟨hvalid, htext⟩ := readAttributes_spec hread'
        obtain ⟨tail, htail, hend⟩ := readClose_eq_some hclose
        exact h ⟨attributes', hvalid, tail, by rw [strip_eq_some hstrip, htext, htail], hend⟩
  have hbare : bareMarker value = none := by
    by_contra hsome
    obtain ⟨text, hread⟩ := Option.ne_none_iff_exists'.mp hsome
    obtain ⟨rest, hstrip, hclose⟩ := Option.bind_eq_some_iff.mp hread
    obtain ⟨tail, htail, hend⟩ := readClose_eq_some hclose
    refine h ⟨[], fun _ hmem => absurd hmem List.not_mem_nil, tail, ?_, hend⟩
    rw [strip_eq_some hstrip, htail]
    exact rfl
  unfold decodeCodexStructuredUserText
  rw [hattributes]
  dsimp only
  rw [hbare]

/-- A marker line with attributes is read as it was written. -/
theorem markerWithAttributes_written {attributes : List Attribute} (h : ∀ item ∈ attributes, item.Valid)
    (hsome : attributes ≠ []) (text : Text) :
    markerWithAttributes (MARKER ++ (attributes.flatMap Attribute.written ++ (CLOSE ++ 10 :: text))) =
      some (attributes, text) := by
  have hlimit : attributes.length ≤ (attributes.flatMap Attribute.written ++ (CLOSE ++ 10 :: text)).length := by
    have hcount : ∀ items : List Attribute, items.length ≤ (items.flatMap Attribute.written).length := by
      intro items
      induction items with
      | nil => exact Nat.le_refl _
      | cons item items ih =>
        rw [List.flatMap_cons, List.length_append, List.length_cons]
        have hpos : 1 ≤ item.written.length := by
          unfold Attribute.written
          rw [List.cons_append, List.length_cons]
          omega
        omega
    rw [List.length_append]
    exact (hcount attributes).trans (Nat.le_add_right _ _)
  unfold markerWithAttributes
  rw [strip_append]
  dsimp only
  rw [readAttributes_written h hlimit]
  cases attributes with
  | nil => exact absurd rfl hsome
  | cons item attributes =>
    dsimp only
    rw [readClose_newline, Option.map_some]

theorem isValueUnit_of_url {u : UInt16} (h : isUrlUnit u = true) : isValueUnit u = true := by
  unfold isValueUnit
  rw [Bool.and_eq_true, decide_eq_true_eq, decide_eq_true_eq]
  constructor <;> rintro rfl <;> exact absurd h (by decide)

/-- A reference fits an attribute. -/
theorem value_of_reference {reference : Text} (h : isReference reference = true) :
    reference ≠ [] ∧ reference.all isValueUnit = true := by
  have hforms : (units "o").all isValueUnit = true ∧ (units "a").all isValueUnit = true ∧
      (units "d").all isValueUnit = true ∧ (units "h").all isValueUnit = true := by decide
  have hurl : ∀ part : Text, part.all isUrlUnit = true → part.all isValueUnit = true := by
    intro part hpart
    rw [List.all_eq_true] at *
    exact fun u hu => isValueUnit_of_url (hpart u hu)
  have hdot : isValueUnit DOT = true := by decide
  have hwhole : reference = [DOT].intercalate (reference.splitOn DOT) := (List.intercalate_splitOn DOT).symm
  unfold isReference at h
  split at h
  · rename_i form key hsplit
    rw [hsplit, intercalate_two] at hwhole
    simp only [Bool.and_eq_true, decide_eq_true_eq] at h
    obtain ⟨⟨hf, -⟩, hkey⟩ := h
    have hform : form.all isValueUnit = true := by
      rcases hf with rfl | rfl
      · exact hforms.2.2.1
      · exact hforms.2.2.2
    rw [hwhole, List.all_append, List.all_cons, hform, hdot, hurl key hkey]
    exact ⟨by simp, rfl⟩
  · rename_i form key fingerprint hsplit
    have hthree : [DOT].intercalate [form, key, fingerprint] = form ++ DOT :: (key ++ DOT :: fingerprint) := by
      simp [List.intercalate]
    rw [hsplit, hthree] at hwhole
    simp only [Bool.and_eq_true, decide_eq_true_eq] at h
    obtain ⟨⟨⟨⟨hf, -⟩, hkey⟩, -⟩, hfingerprint⟩ := h
    have hform : form.all isValueUnit = true := by
      rcases hf with rfl | rfl | rfl
      · exact hforms.1
      · exact hforms.2.1
      · exact hforms.2.2.1
    rw [hwhole, List.all_append, List.all_cons, List.all_append, List.all_cons, hform, hdot, hurl key hkey,
      hurl fingerprint hfingerprint]
    exact ⟨by simp, rfl⟩
  · exact absurd h Bool.false_ne_true

/-- The origin that a reference or, if it is of two parts, its sender names. -/
def namedOrigin (reference : Text) (origin : Option MessageOrigin) : Option MessageOrigin :=
  if reference.take 2 = units "o." then some ⟨.operator, none⟩
  else if reference.take 2 = units "a." then some ⟨.agent, none⟩
  else if (reference.splitOn DOT).length = 2 then origin.map fun origin => ⟨origin.kind, none⟩
  else none

/-- A two-part reference names no origin itself. -/
theorem two_parts_form {reference : Text} (h : isReference reference = true) (htwo : (reference.splitOn DOT).length = 2) :
    reference.take 2 ≠ units "o." ∧ reference.take 2 ≠ units "a." := by
  have hwhole : reference = [DOT].intercalate (reference.splitOn DOT) := (List.intercalate_splitOn DOT).symm
  unfold isReference at h
  match hsplit : reference.splitOn DOT, htwo with
  | [form, key], _ =>
    rw [hsplit] at h
    simp only [Bool.and_eq_true, decide_eq_true_eq] at h
    rw [hsplit, intercalate_two] at hwhole
    rw [hwhole]
    have hforms : units "d." ≠ units "o." ∧ units "d." ≠ units "a." ∧ units "h." ≠ units "o." ∧ units "h." ≠ units "a." := by
      decide
    rcases h.1.1 with rfl | rfl
    · have htake : (units "d" ++ DOT :: key).take 2 = units "d." := rfl
      rw [htake]
      exact ⟨hforms.1, hforms.2.1⟩
    · have htake : (units "h" ++ DOT :: key).take 2 = units "h." := rfl
      rw [htake]
      exact hforms.2.2

/-- What the reference attribute gives. -/
theorem read_ctx {reference key : Text} (h : structuredUserReferenceKey reference = some key) :
    Reading.read decodeContext ⟨none, none, none, none, none, none⟩ ⟨units "ctx", reference⟩ =
      { contentDigest := none
        selectedContext := none
        originKind := if reference.take 2 = units "o." then some .operator
          else if reference.take 2 = units "a." then some .agent else none
        senderRole := none
        deliveryDedup := if reference.take 2 = units "h." then none else some key
        metadataRef := some reference } := by
  have hsha : units "ctx" ≠ units "sha256" := by decide
  have horigin : units "ctx" ≠ units "origin" := by decide
  have hsender : units "ctx" ≠ units "sender" := by decide
  have hdedup : units "ctx" ≠ units "dedup" := by decide
  have hforms : units "o." ≠ units "h." ∧ units "a." ≠ units "h." ∧ units "o." ≠ units "a." := by decide
  unfold Reading.read
  simp only [hsha, horigin, hsender, hdedup, false_and, if_false, if_true, h]
  by_cases hoperator : reference.take 2 = units "o."
  · simp [hoperator, hforms]
  · by_cases hagent : reference.take 2 = units "a."
    · simp [hagent, hforms, Ne.symm hforms.2.2]
    · by_cases hheld : reference.take 2 = units "h."
      · simp [hheld, Ne.symm hforms.1, Ne.symm hforms.2.1]
      · simp [hoperator, hagent, hheld]

/-- What the origin attribute adds. -/
theorem read_origin (reading : Reading σ) (kind : OriginKind) :
    Reading.read decodeContext reading ⟨units "origin", kind.text⟩ = { reading with originKind := some kind } := by
  have hsha : units "origin" ≠ units "sha256" := by decide
  have hctx : units "origin" ≠ units "ctx" := by decide
  have hsender : units "origin" ≠ units "sender" := by decide
  have hdedup : units "origin" ≠ units "dedup" := by decide
  have hkinds : OriginKind.agent.text ≠ OriginKind.operator.text := by decide
  unfold Reading.read
  simp only [hsha, hctx, hsender, hdedup, false_and, if_false, true_and]
  cases kind
  · rw [if_pos rfl]
  · rw [if_neg hkinds, if_pos rfl]

theorem decode_written {attributes : List Attribute} (h : ∀ item ∈ attributes, item.Valid) (hsome : attributes ≠ [])
    (text : Text) {reading : Reading σ}
    (hreading : attributes.foldl (Reading.read decodeContext) ⟨none, none, none, none, none, none⟩ = reading) :
    decodeCodexStructuredUserText decodeContext
        (MARKER ++ (attributes.flatMap Attribute.written ++ (CLOSE ++ 10 :: text))) =
      { text := text
        structured := true
        contentDigest := reading.contentDigest
        selectedContext := reading.selectedContext
        origin := reading.originKind.map fun kind => ⟨kind, if kind = .agent then reading.senderRole else none⟩
        deliveryDedup := reading.deliveryDedup
        metadataRef := reading.metadataRef } := by
  unfold decodeCodexStructuredUserText
  rw [markerWithAttributes_written h hsome]
  dsimp only
  rw [hreading]

theorem decode_encode (text : Text) {reference key : Text} (hkey : structuredUserReferenceKey reference = some key)
    (origin : Option MessageOrigin) :
    ∃ encoded, encodeCodexStructuredUserText text reference origin = some encoded ∧
      decodeCodexStructuredUserText decodeContext encoded =
        { text := text
          structured := true
          contentDigest := none
          selectedContext := none
          origin := namedOrigin reference origin
          deliveryDedup := if reference.take 2 = units "h." then none else some key
          metadataRef := some reference } := by
  have hreference := (reference_parts hkey).1
  have hctxName : units "ctx" ≠ [] ∧ (units "ctx").all isNameUnit = true := by decide
  have horiginName : units "origin" ≠ [] ∧ (units "origin").all isNameUnit = true := by decide
  have hkind : ∀ kind : OriginKind, kind.text ≠ [] ∧ kind.text.all isValueUnit = true := by
    intro kind
    cases kind <;> decide
  have hctx : Attribute.Valid ⟨units "ctx", reference⟩ := ⟨hctxName, value_of_reference hreference⟩
  have hctxText : units " ctx=" = 32 :: (units "ctx" ++ [61]) := by decide
  have horiginText : units " origin=" = 32 :: (units "origin" ++ [61]) := by decide
  have hone : ∀ item ∈ [Attribute.mk (units "ctx") reference], item.Valid := by
    intro item hitem
    rw [List.mem_singleton.mp hitem]
    exact hctx
  -- without an origin the line has one attribute
  have hbareText : MARKER ++ units " ctx=" ++ reference ++ [] ++ CLOSE ++ 10 :: text =
      MARKER ++ ([Attribute.mk (units "ctx") reference].flatMap Attribute.written ++ (CLOSE ++ 10 :: text)) := by
    rw [hctxText]
    simp [Attribute.written]
  have hbare := decode_written decodeContext hone (List.cons_ne_nil _ _) text (read_ctx decodeContext hkey)
  rw [← hbareText] at hbare
  unfold encodeCodexStructuredUserText
  rw [hkey, Option.isSome_some, if_pos rfl]
  dsimp only
  refine ⟨_, rfl, ?_⟩
  by_cases htwo : (reference.splitOn DOT).length = 2
  · obtain ⟨hoperator, hagent⟩ := two_parts_form hreference htwo
    rw [if_pos htwo]
    cases origin with
    | none =>
      rw [Option.elim_none, hbare]
      simp [namedOrigin, hoperator, hagent, htwo]
    | some origin =>
      have htext : MARKER ++ units " ctx=" ++ reference ++ (units " origin=" ++ origin.kind.text) ++ CLOSE ++ 10 :: text =
          MARKER ++ ([Attribute.mk (units "ctx") reference, ⟨units "origin", origin.kind.text⟩].flatMap Attribute.written ++
            (CLOSE ++ 10 :: text)) := by
        rw [hctxText, horiginText]
        simp [Attribute.written]
      have hboth : ∀ item ∈ [Attribute.mk (units "ctx") reference, ⟨units "origin", origin.kind.text⟩], item.Valid := by
        intro item hitem
        rcases List.mem_cons.mp hitem with rfl | hitem
        · exact hctx
        · rw [List.mem_singleton.mp hitem]
          exact ⟨horiginName, hkind origin.kind⟩
      have hreading := read_origin decodeContext
        (Reading.read decodeContext ⟨none, none, none, none, none, none⟩ ⟨units "ctx", reference⟩) origin.kind
      rw [read_ctx decodeContext hkey] at hreading
      have hfold : [Attribute.mk (units "ctx") reference, ⟨units "origin", origin.kind.text⟩].foldl
          (Reading.read decodeContext) ⟨none, none, none, none, none, none⟩ =
          Reading.read decodeContext (Reading.read decodeContext ⟨none, none, none, none, none, none⟩
            ⟨units "ctx", reference⟩) ⟨units "origin", origin.kind.text⟩ := rfl
      rw [read_ctx decodeContext hkey] at hfold
      rw [Option.elim_some, htext, decode_written decodeContext hboth (List.cons_ne_nil _ _) text (hfold.trans hreading)]
      simp [namedOrigin, hoperator, hagent, htwo]
  · rw [if_neg htwo, hbare]
    unfold namedOrigin
    rw [if_neg htwo]
    by_cases hoperator : reference.take 2 = units "o."
    · simp [hoperator]
    · by_cases hagent : reference.take 2 = units "a."
      · have hforms : units "a." ≠ units "o." := by decide
        simp [hagent, hforms]
      · simp [hoperator, hagent]

/-- **Texts and references come back**: an encoded text decodes to itself with its reference, a key and its
reference name each other, and a text without a marker is left as it is. -/
theorem structured_user_text_round_trip :
    (∀ text reference origin, (encodeCodexStructuredUserText text reference origin).isSome =
        (structuredUserReferenceKey reference).isSome) ∧
    (∀ text reference origin encoded, encodeCodexStructuredUserText text reference origin = some encoded →
      ∃ key, structuredUserReferenceKey reference = some key ∧
        decodeCodexStructuredUserText decodeContext encoded =
          { text := text
            structured := true
            contentDigest := none
            selectedContext := none
            origin := namedOrigin reference origin
            deliveryDedup := if reference.take 2 = units "h." then none else some key
            metadataRef := some reference }) ∧
    (∀ key delivery, isSha256 key = true → ∃ reference, structuredUserReference key delivery = some reference ∧
      structuredUserReferenceKey reference = some key) ∧
    (∀ reference key, structuredUserReferenceKey reference = some key → (reference.splitOn DOT).length = 2 →
      structuredUserReference key (decide (reference.take 2 = units "d.")) = some reference) ∧
    ∀ value, ¬Marked value → decodeCodexStructuredUserText decodeContext value =
      ⟨value, false, none, none, none, none, none⟩ := by
  refine ⟨fun text reference origin => ?_, fun text reference origin encoded h => ?_,
    fun key delivery h => key_of_reference h delivery, fun reference key h htwo => reference_of_key h htwo,
    fun value h => decode_unmarked decodeContext h⟩
  · unfold encodeCodexStructuredUserText
    cases structuredUserReferenceKey reference with
    | none => exact rfl
    | some key => exact rfl
  · cases hkey : structuredUserReferenceKey reference with
    | none =>
        unfold encodeCodexStructuredUserText at h
        rw [hkey] at h
        exact absurd h nofun
    | some key =>
        obtain ⟨encoded', hencoded, hdecode⟩ := decode_encode decodeContext text hkey origin
        obtain rfl := Option.some.inj (hencoded.symm.trans h)
        exact ⟨key, rfl, hdecode⟩

end Delegatus.StructuredUserText
