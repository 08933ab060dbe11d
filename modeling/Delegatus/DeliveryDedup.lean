import Delegatus.Sha256
import Delegatus.Utf8Texts
import Mathlib.Data.Nat.Digits.Lemmas

/-!
# Delivery tokens

`sha256Hex` computes SHA-256 by hand over numbers: the bitwise operators take the low 32 bits of their
operands, `>>>` answers an unsigned number and the others a signed one, and sums run over until `>>> 0`
or an element of a `Uint32Array` cuts them.  Every number here is an integer of far less than 53 bits.
`sha256Hex_eq` says that the answer is the digest of the UTF-8 bytes, for every string.
-/

namespace Delegatus.DeliveryDedup

open JsonText JsStrings Utf8Texts

/-! ### Numbers -/

/-- The low 32 bits of an integer. -/
abbrev bits (n : ℤ) : BitVec 32 := BitVec.ofInt 32 n

/-- `n >>> k` -/
def unsignedShift (n : ℤ) (k : ℕ) : ℤ := (bits n >>> (k % 32)).toNat

/-- `n << k` -/
def leftShift (n : ℤ) (k : ℕ) : ℤ := (bits n <<< (k % 32)).toInt

/-- `n | m` -/
def bitOr (n m : ℤ) : ℤ := (bits n ||| bits m).toInt

/-- `n & m` -/
def bitAnd (n m : ℤ) : ℤ := (bits n &&& bits m).toInt

/-- `n ^ m` -/
def bitXor (n m : ℤ) : ℤ := (bits n ^^^ bits m).toInt

/-- `~n` -/
def bitNot (n : ℤ) : ℤ := (~~~bits n).toInt

/-! ### Typed arrays -/

abbrev Uint32Array := List (BitVec 32)

def read (array : Uint32Array) (i : ℕ) : ℤ := (array.getD i 0).toNat

def write (array : Uint32Array) (i : ℕ) (n : ℤ) : Uint32Array := array.set i (bits n)

abbrev Uint8Array := List UInt8

/-- `bytes` over those of `array` from `offset` on. -/
def put (array : Uint8Array) (offset : ℕ) (bytes : List UInt8) : Uint8Array :=
  array.take offset ++ bytes ++ array.drop (offset + bytes.length)

def setUint32 (view : Uint8Array) (offset n : ℕ) : Uint8Array :=
  put view offset (Sha256.bigEndian 4 (n % 2 ^ 32))

def getUint32 (view : Uint8Array) (offset : ℕ) : ℤ :=
  let byte := fun i => ((view.getD (offset + i) 0).toNat : ℤ)
  byte 0 * 2 ^ 24 + byte 1 * 2 ^ 16 + byte 2 * 2 ^ 8 + byte 3

/-! ### Texts -/

/-- The bytes of a code point; a surrogate without its other half is written as U+FFFD. -/
def encodePoint : Text → List UInt8
  | [u] =>
    let point := u.toNat
    if point < 0x80 then [UInt8.ofNat point]
    else if point < 0x800 then [UInt8.ofNat (0xC0 + point / 64), UInt8.ofNat (0x80 + point % 64)]
    else if isLead u || isTrail u then [0xEF, 0xBF, 0xBD]
    else [UInt8.ofNat (0xE0 + point / 4096), UInt8.ofNat (0x80 + point / 64 % 64), UInt8.ofNat (0x80 + point % 64)]
  | [u, v] =>
    let point := 0x10000 + (u.toNat - 0xD800) * 0x400 + (v.toNat - 0xDC00)
    [UInt8.ofNat (0xF0 + point / 262144), UInt8.ofNat (0x80 + point / 4096 % 64),
      UInt8.ofNat (0x80 + point / 64 % 64), UInt8.ofNat (0x80 + point % 64)]
  | _ => []

/-- `new TextEncoder().encode(value)` -/
def encode (value : Text) : List UInt8 := (points value).flatMap encodePoint

/-- `n.toString(16)` of a number that is no fraction and not negative. -/
def toString16 (n : ℕ) : Text := if n = 0 then [48] else ((Nat.digits 16 n).map hexDigit).reverse

def padStart (length : ℕ) (unit : UInt16) (text : Text) : Text := text.leftpad length unit

/-! ### The digest -/

def K : Uint32Array := [
  0x428a2f98, 0x71374491, 0xb5c0fbcf, 0xe9b5dba5, 0x3956c25b, 0x59f111f1, 0x923f82a4, 0xab1c5ed5,
  0xd807aa98, 0x12835b01, 0x243185be, 0x550c7dc3, 0x72be5d74, 0x80deb1fe, 0x9bdc06a7, 0xc19bf174,
  0xe49b69c1, 0xefbe4786, 0x0fc19dc6, 0x240ca1cc, 0x2de92c6f, 0x4a7484aa, 0x5cb0a9dc, 0x76f988da,
  0x983e5152, 0xa831c66d, 0xb00327c8, 0xbf597fc7, 0xc6e00bf3, 0xd5a79147, 0x06ca6351, 0x14292967,
  0x27b70a85, 0x2e1b2138, 0x4d2c6dfc, 0x53380d13, 0x650a7354, 0x766a0abb, 0x81c2c92e, 0x92722c85,
  0xa2bfe8a1, 0xa81a664b, 0xc24b8b70, 0xc76c51a3, 0xd192e819, 0xd6990624, 0xf40e3585, 0x106aa070,
  0x19a4c116, 0x1e376c08, 0x2748774c, 0x34b0bcb5, 0x391c0cb3, 0x4ed8aa4a, 0x5b9cca4f, 0x682e6ff3,
  0x748f82ee, 0x78a5636f, 0x84c87814, 0x8cc70208, 0x90befffa, 0xa4506ceb, 0xbef9a3f7, 0xc67178f2]

def INITIAL : Uint32Array := [
  0x6a09e667, 0xbb67ae85, 0x3c6ef372, 0xa54ff53a, 0x510e527f, 0x9b05688c, 0x1f83d9ab, 0x5be0cd19]

def rotr (value : ℤ) (bits : ℕ) : ℤ := bitOr (unsignedShift value bits) (leftShift value (32 - bits))

/-- `⌈(length + 9) / 64⌉` -/
def blockCount (bytes : List UInt8) : ℕ := (bytes.length + 9 + 63) / 64

def padded (bytes : List UInt8) : Uint8Array :=
  let size := blockCount bytes * 64
  let copied := put (List.replicate size 0) 0 bytes
  let marked := copied.set bytes.length 0x80
  let high := setUint32 marked (size - 8) (bytes.length * 8 / 2 ^ 32)
  setUint32 high (size - 4) (bytes.length * 8)

/-- The loop over the first sixteen words. -/
def firstWords (view : Uint8Array) (offset : ℕ) (w : Uint32Array) : ℕ → Uint32Array
  | 0 => w
  | i + 1 => write (firstWords view offset w i) i (getUint32 view (offset + i * 4))

def nextWord (w : Uint32Array) (i : ℕ) : Uint32Array :=
  let x := read w (i - 15)
  let y := read w (i - 2)
  let s0 := bitXor (bitXor (rotr x 7) (rotr x 18)) (unsignedShift x 3)
  let s1 := bitXor (bitXor (rotr y 17) (rotr y 19)) (unsignedShift y 10)
  write w i (unsignedShift (read w (i - 16) + s0 + read w (i - 7) + s1) 0)

/-- The loop over the words from the seventeenth on, after `n` steps. -/
def restWords (w : Uint32Array) : ℕ → Uint32Array
  | 0 => w
  | n + 1 => nextWord (restWords w n) (16 + n)

structure Variables where
  a : ℤ
  b : ℤ
  c : ℤ
  d : ℤ
  e : ℤ
  f : ℤ
  g : ℤ
  acc : ℤ

def step (w : Uint32Array) (v : Variables) (i : ℕ) : Variables :=
  let s1 := bitXor (bitXor (rotr v.e 6) (rotr v.e 11)) (rotr v.e 25)
  let choice := bitXor (bitAnd v.e v.f) (bitAnd (bitNot v.e) v.g)
  let t1 := unsignedShift (v.acc + s1 + choice + read K i + read w i) 0
  let s0 := bitXor (bitXor (rotr v.a 2) (rotr v.a 13)) (rotr v.a 22)
  let majority := bitXor (bitXor (bitAnd v.a v.b) (bitAnd v.a v.c)) (bitAnd v.b v.c)
  let t2 := unsignedShift (s0 + majority) 0
  ⟨unsignedShift (t1 + t2) 0, v.a, v.b, v.c, unsignedShift (v.d + t1) 0, v.e, v.f, v.g⟩

def steps (w : Uint32Array) (v : Variables) : ℕ → Variables
  | 0 => v
  | i + 1 => step w (steps w v i) i

/-- `h[i] = (h[i] + n) >>> 0` -/
def raise (h : Uint32Array) (i : ℕ) (n : ℤ) : Uint32Array := write h i (unsignedShift (read h i + n) 0)

/-- The hash and the words after one more block. -/
def processBlock (view : Uint8Array) (block : ℕ) (state : Uint32Array × Uint32Array) : Uint32Array × Uint32Array :=
  let (h, w) := state
  let w := restWords (firstWords view (block * 64) w 16) 48
  let v := steps w ⟨read h 0, read h 1, read h 2, read h 3, read h 4, read h 5, read h 6, read h 7⟩ 64
  (raise (raise (raise (raise (raise (raise (raise (raise h 0 v.a) 1 v.b) 2 v.c) 3 v.d) 4 v.e) 5 v.f) 6 v.g) 7 v.acc, w)

def processBlocks (view : Uint8Array) : ℕ → Uint32Array × Uint32Array
  | 0 => (INITIAL, List.replicate 64 0)
  | block + 1 => processBlock view block (processBlocks view block)

def sha256Hex (value : Text) : Text :=
  let bytes := encode value
  let h := (processBlocks (padded bytes) (blockCount bytes)).1
  (List.range 8).flatMap fun i => padStart 8 48 (toString16 (h.getD i 0).toNat)

/-- A byte in two lowercase digits. -/
def hexByte (byte : UInt8) : Text := [hexDigit (byte.toNat / 16), hexDigit (byte.toNat % 16)]

/-! ### UTF-8 -/

theorem points_cons_of_not_lead {u : UInt16} (h : isLead u = false) (rest : Text) :
    points (u :: rest) = [u] :: points rest := by
  cases rest with
  | nil => exact rfl
  | cons v rest => rw [points, h, Bool.false_and, if_neg Bool.false_ne_true]

/-- Lead and trail surrogates by their numbers. -/
theorem surrogates {u : UInt16} {n : ℕ} (hunit : u.toNat = n) :
    isLead u = decide (0xD800 ≤ n ∧ n ≤ 0xDBFF) ∧ isTrail u = decide (0xDC00 ≤ n ∧ n ≤ 0xDFFF) := by
  subst n
  unfold isLead isTrail
  rw [Bool.decide_and, Bool.decide_and]
  exact ⟨rfl, rfl⟩

/-- A character is encoded in its UTF-8 bytes. -/
theorem encode_char (c : Char) (rest : Text) :
    encode ((charUnits c).map UInt16.ofNat ++ rest) = String.utf8EncodeChar c ++ encode rest := by
  have hvalid : c.toNat < 0xD800 ∨ (0xDFFF < c.toNat ∧ c.toNat < 0x110000) := c.valid
  have hnumber : c.val.toNat = c.toNat := rfl
  unfold charUnits encode String.utf8EncodeChar
  rw [hnumber]
  dsimp only
  by_cases hplane : c.toNat < 0x10000
  · have hunit : (UInt16.ofNat c.toNat).toNat = c.toNat := UInt16.toNat_ofNat_of_lt' hplane
    have hlead : isLead (UInt16.ofNat c.toNat) = false := (surrogates hunit).1.trans (decide_eq_false (by omega))
    have htrail : isTrail (UInt16.ofNat c.toNat) = false := (surrogates hunit).2.trans (decide_eq_false (by omega))
    rw [if_pos hplane, List.map_singleton, List.singleton_append, points_cons_of_not_lead hlead, List.flatMap_cons]
    congr 1
    simp only [encodePoint, hunit, hlead, htrail, Bool.or_self, Bool.false_eq_true, if_false]
    by_cases hone : c.toNat < 0x80
    · rw [if_pos hone, if_pos (show c.toNat ≤ 127 by omega)]
    · rw [if_neg hone, if_neg (show ¬c.toNat ≤ 127 by omega)]
      by_cases htwo : c.toNat < 0x800
      · rw [if_pos htwo, if_pos (show c.toNat ≤ 2047 by omega), Nat.mod_eq_of_lt (by omega : c.toNat / 64 < 32), Nat.add_comm 0xC0,
          Nat.add_comm 0x80]
      · rw [if_neg htwo, if_neg (show ¬c.toNat ≤ 2047 by omega), if_pos (show c.toNat ≤ 65535 by omega),
          Nat.mod_eq_of_lt (by omega : c.toNat / 4096 < 16),
          Nat.add_comm 0xE0, Nat.add_comm 0x80, Nat.add_comm 0x80]
  · have hhigh : (UInt16.ofNat (0xD800 + (c.toNat - 0x10000) / 0x400)).toNat = 0xD800 + (c.toNat - 0x10000) / 0x400 :=
      UInt16.toNat_ofNat_of_lt' (show _ < 65536 by omega)
    have hlow : (UInt16.ofNat (0xDC00 + (c.toNat - 0x10000) % 0x400)).toNat = 0xDC00 + (c.toNat - 0x10000) % 0x400 :=
      UInt16.toNat_ofNat_of_lt' (show _ < 65536 by omega)
    have hlead := (surrogates hhigh).1.trans (decide_eq_true (by omega))
    have htrail := (surrogates hlow).2.trans (decide_eq_true (by omega))
    have hpoint : 0x10000 + (0xD800 + (c.toNat - 0x10000) / 0x400 - 0xD800) * 0x400 +
        (0xDC00 + (c.toNat - 0x10000) % 0x400 - 0xDC00) = c.toNat := by omega
    rw [if_neg hplane, List.map_cons, List.map_singleton, List.cons_append, List.singleton_append, points,
      if_pos (by rw [hlead, htrail, Bool.and_self]), List.flatMap_cons]
    refine congrArg (· ++ _) ?_
    simp only [encodePoint]
    rw [hhigh, hlow, hpoint, if_neg (by omega), if_neg (by omega), if_neg (by omega),
      Nat.mod_eq_of_lt (by omega : c.toNat / 262144 < 8), Nat.add_comm 0xF0, Nat.add_comm 0x80, Nat.add_comm 0x80,
      Nat.add_comm 0x80]

/-- The bytes of a text without half surrogate pairs are those of its UTF-8 encoding. -/
theorem encode_units (text : String) : encode (units text) = text.toList.flatMap String.utf8EncodeChar := by
  unfold units codeUnits
  induction text.toList with
  | nil => exact rfl
  | cons c rest ih => rw [List.flatMap_cons, List.flatMap_cons, List.map_append, encode_char, ih]

/-! ### Operators -/

theorem bits_natCast (n : ℕ) : bits n = BitVec.ofNat 32 n := BitVec.ofInt_natCast 32 n

theorem bits_read (array : Uint32Array) (i : ℕ) : bits (read array i) = array.getD i 0 := by
  unfold read
  rw [bits_natCast, BitVec.ofNat_toNat, BitVec.setWidth_eq]

theorem bits_unsignedShift (n : ℤ) (k : ℕ) : bits (unsignedShift n k) = bits n >>> (k % 32) := by
  unfold unsignedShift
  rw [bits_natCast, BitVec.ofNat_toNat, BitVec.setWidth_eq]

theorem bits_leftShift (n : ℤ) (k : ℕ) : bits (leftShift n k) = bits n <<< (k % 32) := BitVec.ofInt_toInt

theorem bits_bitOr (n m : ℤ) : bits (bitOr n m) = bits n ||| bits m := BitVec.ofInt_toInt

theorem bits_bitAnd (n m : ℤ) : bits (bitAnd n m) = bits n &&& bits m := BitVec.ofInt_toInt

theorem bits_bitXor (n m : ℤ) : bits (bitXor n m) = bits n ^^^ bits m := BitVec.ofInt_toInt

theorem bits_bitNot (n : ℤ) : bits (bitNot n) = ~~~bits n := BitVec.ofInt_toInt

theorem bits_add (n m : ℤ) : bits (n + m) = bits n + bits m := BitVec.ofInt_add n m

/-- `n >>> 0` keeps the low 32 bits. -/
theorem bits_unsigned (n : ℤ) : bits (unsignedShift n 0) = bits n := by
  rw [bits_unsignedShift, Nat.zero_mod, BitVec.ushiftRight_zero]

theorem bits_rotr (n : ℤ) {k : ℕ} (hpos : 0 < k) (hlt : k < 32) : bits (rotr n k) = (bits n).rotateRight k := by
  unfold rotr
  rw [bits_bitOr, bits_unsignedShift, bits_leftShift, BitVec.rotateRight_def, Nat.mod_eq_of_lt hlt,
    Nat.mod_eq_of_lt (by omega)]

theorem getD_write {array : Uint32Array} {i : ℕ} (hi : i < array.length) (n : ℤ) (j : ℕ) :
    (write array i n).getD j 0 = if i = j then bits n else array.getD j 0 := by
  unfold write
  rw [List.getD_eq_getElem?_getD, List.getElem?_set, if_pos hi, List.getD_eq_getElem?_getD]
  split <;> rfl

theorem length_write (array : Uint32Array) (i : ℕ) (n : ℤ) : (write array i n).length = array.length :=
  List.length_set

/-! ### The schedule -/

theorem bits_getUint32 (view : Uint8Array) (offset : ℕ) : bits (getUint32 view offset) = Sha256.wordAt view offset := by
  unfold getUint32 Sha256.wordAt Sha256.byteAt
  rw [← BitVec.ofInt_natCast]
  congr 1

theorem firstWords_spec (view : Uint8Array) (offset : ℕ) {w : Uint32Array} (hw : w.length = 64) {n : ℕ} (hn : n ≤ 16) :
    (firstWords view offset w n).length = 64 ∧
      ∀ t < n, (firstWords view offset w n).getD t 0 = Sha256.block view offset t := by
  induction n with
  | zero => exact ⟨hw, fun t ht => absurd ht (Nat.not_lt_zero t)⟩
  | succ n ih =>
    obtain ⟨hlength, hheld⟩ := ih (by omega)
    rw [firstWords]
    refine ⟨(length_write _ _ _).trans hlength, fun t ht => ?_⟩
    rw [getD_write (by omega)]
    split
    · subst t
      exact bits_getUint32 view (offset + n * 4)
    · exact hheld t (by omega)

theorem restWords_spec {w : Uint32Array} {block : ℕ → Sha256.Word} (hw : w.length = 64)
    (hblock : ∀ t < 16, w.getD t 0 = block t) {n : ℕ} (hn : n ≤ 48) :
    (restWords w n).length = 64 ∧ ∀ t < 16 + n, (restWords w n).getD t 0 = Sha256.schedule block t := by
  induction n with
  | zero => exact ⟨hw, fun t ht => (hblock t ht).trans (Sha256.schedule_of_lt ht).symm⟩
  | succ n ih =>
    obtain ⟨hlength, hheld⟩ := ih (by omega)
    rw [restWords, nextWord]
    refine ⟨(length_write _ _ _).trans hlength, fun t ht => ?_⟩
    rw [getD_write (by omega)]
    split
    · subst t
      rw [Sha256.schedule_of_le (by omega), bits_unsigned]
      simp (disch := decide) only [bits_add, bits_bitXor, bits_rotr, bits_unsignedShift, bits_read]
      rw [hheld _ (by omega), hheld _ (by omega), hheld _ (by omega), hheld _ (by omega)]
      unfold Sha256.lower0 Sha256.lower1
      simp only [Nat.reduceMod]
      ac_rfl
    · exact hheld t (by omega)

/-! ### The rounds -/

/-- The numbers hold these words in their low bits. -/
def Variables.words (v : Variables) : Sha256.Working :=
  ⟨bits v.a, bits v.b, bits v.c, bits v.d, bits v.e, bits v.f, bits v.g, bits v.acc⟩

theorem K_eq : K = Sha256.roundConstants := by decide +kernel

theorem words_step (w : Uint32Array) (v : Variables) (i : ℕ) :
    (step w v i).words = Sha256.round (Sha256.roundConstants.getD i 0) (w.getD i 0) v.words := by
  unfold step Variables.words Sha256.round Sha256.upper0 Sha256.upper1 Sha256.choice Sha256.majority
  simp (disch := decide) only [bits_unsigned, bits_add, bits_bitXor, bits_bitAnd, bits_bitNot, bits_rotr, bits_read, K_eq]

theorem words_steps {w : Uint32Array} {block : ℕ → Sha256.Word} (hw : ∀ t < 64, w.getD t 0 = Sha256.schedule block t)
    (v : Variables) {n : ℕ} (hn : n ≤ 64) : (steps w v n).words = Sha256.rounds block v.words n := by
  induction n with
  | zero => exact rfl
  | succ n ih => rw [steps, words_step, ih (by omega), hw n (by omega), Sha256.rounds]

/-! ### The blocks -/

def hashWords (h : Uint32Array) : Sha256.Working :=
  ⟨h.getD 0 0, h.getD 1 0, h.getD 2 0, h.getD 3 0, h.getD 4 0, h.getD 5 0, h.getD 6 0, h.getD 7 0⟩

theorem initial_eq : hashWords INITIAL = Sha256.initial := by decide +kernel

theorem length_raise (h : Uint32Array) (i : ℕ) (n : ℤ) : (raise h i n).length = h.length := length_write h i _

/-- The hash, raised by the working variables. -/
theorem hashWords_raise {h : Uint32Array} (hh : h.length = 8) (v : Variables) :
    hashWords (raise (raise (raise (raise (raise (raise (raise (raise h 0 v.a) 1 v.b) 2 v.c) 3 v.d) 4 v.e) 5 v.f) 6 v.g)
      7 v.acc) = (hashWords h).add v.words := by
  match h, hh with
  | [_, _, _, _, _, _, _, _], _ =>
    simp only [raise, write, bits_unsigned, bits_add, bits_read, hashWords, Sha256.Working.add, Variables.words,
      List.set_cons_zero, List.set_cons_succ, List.getD_cons_zero, List.getD_cons_succ]

theorem processBlock_spec (view : Uint8Array) (block : ℕ) {state : Uint32Array × Uint32Array} (hh : state.1.length = 8)
    (hw : state.2.length = 64) :
    (processBlock view block state).1.length = 8 ∧ (processBlock view block state).2.length = 64 ∧
      hashWords (processBlock view block state).1 =
        Sha256.compress (Sha256.block view (block * 64)) (hashWords state.1) := by
  obtain ⟨hfirst, hblock⟩ := firstWords_spec view (block * 64) hw (Nat.le_refl 16)
  obtain ⟨hrest, hschedule⟩ := restWords_spec hfirst hblock (Nat.le_refl 48)
  unfold processBlock
  dsimp only
  refine ⟨by simp only [length_raise, hh], hrest, ?_⟩
  unfold Sha256.compress
  have hwords := words_steps hschedule ⟨read state.1 0, read state.1 1, read state.1 2, read state.1 3, read state.1 4,
    read state.1 5, read state.1 6, read state.1 7⟩ (Nat.le_refl 64)
  have hstart : Variables.words ⟨read state.1 0, read state.1 1, read state.1 2, read state.1 3, read state.1 4,
      read state.1 5, read state.1 6, read state.1 7⟩ = hashWords state.1 := by
    unfold Variables.words hashWords
    simp only [bits_read]
  rw [hashWords_raise hh, hwords, hstart]

theorem processBlocks_spec (view : Uint8Array) (n : ℕ) :
    (processBlocks view n).1.length = 8 ∧ (processBlocks view n).2.length = 64 ∧
      hashWords (processBlocks view n).1 = Sha256.hashAfter view n := by
  induction n with
  | zero => exact ⟨rfl, rfl, initial_eq⟩
  | succ n ih =>
    obtain ⟨hh, hw, hhash⟩ := ih
    rw [processBlocks, Sha256.hashAfter, ← hhash]
    exact processBlock_spec view n hh hw

/-! ### The padding -/

theorem put_append (front rest new : List UInt8) :
    put (front ++ rest) front.length new = front ++ new ++ rest.drop new.length := by
  unfold put
  rw [List.take_left, ← List.drop_drop, List.drop_left]

theorem setUint32_append (front rest : List UInt8) (n : ℕ) :
    setUint32 (front ++ rest) front.length n = front ++ Sha256.bigEndian 4 n ++ rest.drop 4 := by
  unfold setUint32
  rw [put_append, Sha256.bigEndian_mod, Sha256.length_bigEndian]

theorem padded_eq (bytes : List UInt8) : padded bytes = Sha256.pad bytes := by
  have hsize : blockCount bytes * 64 = bytes.length + (1 + (Sha256.zeros bytes.length + 8)) := by
    unfold blockCount Sha256.zeros
    omega
  let front := bytes ++ 0x80 :: List.replicate (Sha256.zeros bytes.length) 0
  have hcopied : put (List.replicate (blockCount bytes * 64) 0) 0 bytes =
      bytes ++ 0 :: (List.replicate (Sha256.zeros bytes.length) 0 ++ List.replicate 8 0) := by
    unfold put
    rw [List.take_zero, List.nil_append, List.drop_replicate, hsize, Nat.zero_add, Nat.add_sub_cancel_left,
      List.replicate_add, List.replicate_add]
    exact rfl
  have hmarked : (put (List.replicate (blockCount bytes * 64) 0) 0 bytes).set bytes.length 0x80 =
      front ++ List.replicate 8 0 := by
    rw [hcopied, List.set_append_right _ _ (Nat.le_refl _), Nat.sub_self, List.set_cons_zero, List.append_assoc,
      List.cons_append]
  have hhigh : blockCount bytes * 64 - 8 = front.length := by
    rw [hsize, List.length_append, List.length_cons, List.length_replicate]
    omega
  have hlow : ∀ n, blockCount bytes * 64 - 4 = (front ++ Sha256.bigEndian 4 n).length := by
    intro n
    rw [List.length_append, Sha256.length_bigEndian, ← hhigh]
    omega
  unfold padded
  dsimp only
  rw [hmarked, hhigh, setUint32_append, hlow (bytes.length * 8 / 2 ^ 32), setUint32_append, Nat.mul_comm]
  unfold Sha256.pad
  rw [Sha256.bigEndian_eight]
  simp [front]

/-! ### Digits -/

/-- The digits of a word, padded with zeros. -/
theorem digits_append {n : ℕ} (hn : n < 16 ^ 8) :
    (Nat.digits 16 n) ++ List.replicate (8 - (Nat.digits 16 n).length) 0 =
      (List.range 8).map fun i => n / 16 ^ i % 16 := by
  have hlength : (Nat.digits 16 n).length ≤ 8 := (Nat.digits_length_le_iff (by decide) n).mpr hn
  apply List.ext_getElem?
  intro i
  rw [List.getElem?_append, List.getElem?_map]
  by_cases hi : i < 8
  · rw [List.getElem?_range hi, Option.map_some, ← Nat.getD_digits n i (by decide), List.getD_eq_getElem?_getD]
    split
    · rw [List.getElem?_eq_getElem ‹_›, Option.getD_some]
    · rw [List.getElem?_replicate, if_pos (by omega), List.getElem?_eq_none (by omega), Option.getD_none]
  · rw [if_neg (by omega), List.getElem?_eq_none (by simp; omega), List.getElem?_eq_none (by simp; omega), Option.map_none]

theorem padStart_toString16 {n : ℕ} (hn : n < 2 ^ 32) :
    padStart 8 48 (toString16 n) = (Sha256.bigEndian 4 n).flatMap hexByte := by
  have hdigits := digits_append (n := n) (by omega)
  have hpadded : padStart 8 48 (toString16 n) = (((List.range 8).map fun i => n / 16 ^ i % 16).map hexDigit).reverse := by
    rw [← hdigits]
    unfold padStart toString16
    by_cases hzero : n = 0
    · subst n
      decide
    · rw [if_neg hzero, List.leftpad, List.map_append, List.reverse_append, List.length_reverse, List.length_map,
        List.map_replicate, List.reverse_replicate]
      exact rfl
  rw [hpadded]
  simp [Sha256.bigEndian, hexByte, List.range_succ]
  exact ⟨congrArg hexDigit (by omega), congrArg hexDigit (by omega), congrArg hexDigit (by omega),
    congrArg hexDigit (by omega)⟩

/-! ### SHA-256 -/

theorem bytes_getD_flatMap (h : Uint32Array) :
    ((List.range 8).flatMap fun i => padStart 8 48 (toString16 (h.getD i 0).toNat)) =
      ((hashWords h).words.flatMap fun word => Sha256.bigEndian 4 word.toNat).flatMap hexByte := by
  have hword : ∀ word : BitVec 32, padStart 8 48 (toString16 word.toNat) =
      (Sha256.bigEndian 4 word.toNat).flatMap hexByte := fun word => padStart_toString16 word.isLt
  simp only [hword, List.range_succ, List.range_zero, List.flatMap_append, List.flatMap_cons, List.flatMap_nil,
    Sha256.Working.words, hashWords, List.nil_append, List.append_nil, List.append_assoc]

/-- **`sha256Hex` is SHA-256** of the UTF-8 bytes of the string, in lowercase digits. -/
theorem sha256Hex_eq (value : Text) : sha256Hex value = (Sha256.digest (encode value)).flatMap hexByte := by
  have hcount : (Sha256.pad (encode value)).length / 64 = blockCount (encode value) := by
    rw [Sha256.length_pad, Nat.mul_div_cancel _ (by decide)]
    exact rfl
  unfold sha256Hex Sha256.digest
  dsimp only
  rw [bytes_getD_flatMap, (processBlocks_spec _ _).2.2, padded_eq, hcount]

end Delegatus.DeliveryDedup
