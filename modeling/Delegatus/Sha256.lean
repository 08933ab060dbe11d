import Mathlib

/-!
# SHA-256

The hash of a message of bytes as the standard defines it: the constants are bits of roots of primes, the
words of the schedule are given by their recurrence, and the padding fills the last block around the length
of the message.  A message of 2^64 bits or more, for which the standard defines nothing, is given the
length field of its length modulo 2^64.
-/

namespace Delegatus.Sha256

abbrev Word := BitVec 32

/-! ### Functions and constants -/

def choice (x y z : Word) : Word := (x &&& y) ^^^ (~~~x &&& z)

def majority (x y z : Word) : Word := (x &&& y) ^^^ (x &&& z) ^^^ (y &&& z)

/-- Σ₀ -/
def upper0 (x : Word) : Word := x.rotateRight 2 ^^^ x.rotateRight 13 ^^^ x.rotateRight 22

/-- Σ₁ -/
def upper1 (x : Word) : Word := x.rotateRight 6 ^^^ x.rotateRight 11 ^^^ x.rotateRight 25

/-- σ₀ -/
def lower0 (x : Word) : Word := x.rotateRight 7 ^^^ x.rotateRight 18 ^^^ x >>> 3

/-- σ₁ -/
def lower1 (x : Word) : Word := x.rotateRight 17 ^^^ x.rotateRight 19 ^^^ x >>> 10

/-- The first sixty-four primes. -/
def primes : List ℕ := [
  2, 3, 5, 7, 11, 13, 17, 19, 23, 29, 31, 37, 41, 43, 47, 53, 59, 61, 67, 71, 73, 79, 83, 89, 97, 101, 103, 107, 109, 113,
  127, 131, 137, 139, 149, 151, 157, 163, 167, 173, 179, 181, 191, 193, 197, 199, 211, 223, 227, 229, 233, 239, 241, 251,
  257, 263, 269, 271, 277, 281, 283, 293, 307, 311]

/-- The first thirty-two bits of the fractional part of the `k`-th root. -/
def fractionBits (k n : ℕ) : Word := BitVec.ofNat 32 (Nat.nthRoot k (n * 2 ^ (32 * k)))

def roundConstants : List Word := primes.map (fractionBits 3)

/-! ### Messages -/

/-- The low `k` bytes of a number, the most significant first. -/
def bigEndian (k n : ℕ) : List UInt8 := (List.range k).map fun i => UInt8.ofNat (n / 256 ^ (k - 1 - i))

/-- The zeros that follow the first byte of the padding. -/
def zeros (length : ℕ) : ℕ := (119 - length % 64) % 64

/-- A bit 1, zeros and the length in bits. -/
def pad (message : List UInt8) : List UInt8 :=
  message ++ 0x80 :: (List.replicate (zeros message.length) 0 ++ bigEndian 8 (8 * message.length))

def byteAt (bytes : List UInt8) (i : ℕ) : ℕ := (bytes.getD i 0).toNat

/-- The word of the four bytes from `i` on. -/
def wordAt (bytes : List UInt8) (i : ℕ) : Word :=
  BitVec.ofNat 32
    (byteAt bytes i * 2 ^ 24 + byteAt bytes (i + 1) * 2 ^ 16 + byteAt bytes (i + 2) * 2 ^ 8 + byteAt bytes (i + 3))

/-- The block from byte `offset` on, by words. -/
def block (bytes : List UInt8) (offset : ℕ) : ℕ → Word := fun t => wordAt bytes (offset + t * 4)

/-! ### The hash -/

/-- The words `W₀`, `W₁`, … of the schedule. -/
def schedule (block : ℕ → Word) (t : ℕ) : Word :=
  if t < 16 then block t
  else lower1 (schedule block (t - 2)) + schedule block (t - 7) + lower0 (schedule block (t - 15)) +
    schedule block (t - 16)
termination_by t

structure Working where
  a : Word
  b : Word
  c : Word
  d : Word
  e : Word
  f : Word
  g : Word
  h : Word
deriving DecidableEq

def Working.words (s : Working) : List Word := [s.a, s.b, s.c, s.d, s.e, s.f, s.g, s.h]

/-- The first eight primes' square roots. -/
def initial : Working where
  a := fractionBits 2 2
  b := fractionBits 2 3
  c := fractionBits 2 5
  d := fractionBits 2 7
  e := fractionBits 2 11
  f := fractionBits 2 13
  g := fractionBits 2 17
  h := fractionBits 2 19

def round (constant word : Word) (s : Working) : Working :=
  let t1 := s.h + upper1 s.e + choice s.e s.f s.g + constant + word
  let t2 := upper0 s.a + majority s.a s.b s.c
  ⟨t1 + t2, s.a, s.b, s.c, s.d + t1, s.e, s.f, s.g⟩

/-- The working variables before round `t`. -/
def rounds (block : ℕ → Word) (start : Working) : ℕ → Working
  | 0 => start
  | t + 1 => round (roundConstants.getD t 0) (schedule block t) (rounds block start t)

def Working.add (s t : Working) : Working :=
  ⟨s.a + t.a, s.b + t.b, s.c + t.c, s.d + t.d, s.e + t.e, s.f + t.f, s.g + t.g, s.h + t.h⟩

def compress (block : ℕ → Word) (hash : Working) : Working := hash.add (rounds block hash 64)

/-- The hash after the first blocks. -/
def hashAfter (bytes : List UInt8) : ℕ → Working
  | 0 => initial
  | n + 1 => compress (block bytes (n * 64)) (hashAfter bytes n)

def digest (message : List UInt8) : List UInt8 :=
  (hashAfter (pad message) ((pad message).length / 64)).words.flatMap fun word => bigEndian 4 word.toNat

/-! ### Lemmas -/

theorem length_bigEndian (k n : ℕ) : (bigEndian k n).length = k := by
  unfold bigEndian
  rw [List.length_map, List.length_range]

/-- The padding ends the first block that has room for it. -/
theorem length_pad (message : List UInt8) : (pad message).length = (message.length + 72) / 64 * 64 := by
  unfold pad zeros
  rw [List.length_append, List.length_cons, List.length_append, List.length_replicate, length_bigEndian]
  omega

theorem schedule_of_lt {block : ℕ → Word} {t : ℕ} (h : t < 16) : schedule block t = block t := by
  rw [schedule, if_pos h]

theorem schedule_of_le {block : ℕ → Word} {t : ℕ} (h : 16 ≤ t) :
    schedule block t = lower1 (schedule block (t - 2)) + schedule block (t - 7) +
      lower0 (schedule block (t - 15)) + schedule block (t - 16) := by
  rw [schedule, if_neg (Nat.not_lt.mpr h)]

/-- Eight bytes are four of the high half and four of the low one. -/
theorem bigEndian_eight (n : ℕ) : bigEndian 8 n = bigEndian 4 (n / 2 ^ 32) ++ bigEndian 4 n := by
  simp [bigEndian, List.range_succ, Nat.div_div_eq_div_mul]

theorem bigEndian_mod (n : ℕ) : bigEndian 4 (n % 2 ^ 32) = bigEndian 4 n := by
  unfold bigEndian
  apply List.map_congr_left
  intro i hi
  have hlt : i < 4 := List.mem_range.mp hi
  apply UInt8.toNat_inj.mp
  rw [UInt8.toNat_ofNat', UInt8.toNat_ofNat']
  obtain rfl | rfl | rfl | rfl : i = 0 ∨ i = 1 ∨ i = 2 ∨ i = 3 := by omega
  all_goals omega

end Delegatus.Sha256
