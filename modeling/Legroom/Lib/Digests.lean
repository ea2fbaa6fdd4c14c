import Legroom.Lib.Bytes

/-!
# Digests

CRC-32, MD5 and SHA-256 of byte strings.
-/

/-!
## CRC-32

The reflected CRC with polynomial `0xEDB88320`, initial value and final mask
`0xFFFFFFFF`: the checksum of the EventStream wire format.
-/

namespace Legroom

/-- Shift one bit out of the remainder. -/
def crc32Bit (crc : UInt32) : UInt32 :=
  if crc &&& 1 = 1 then (crc >>> 1) ^^^ 0xEDB88320 else crc >>> 1

def crc32Byte (crc : UInt32) (byte : Byte) : UInt32 :=
  (List.range 8).foldl (fun crc _ => crc32Bit crc) (crc ^^^ byte.toUInt32)

/-- `crc32fast::hash`, as the unsigned value that is compared and written. -/
def crc32 (bytes : Bytes) : ℕ :=
  (bytes.foldl crc32Byte 0xFFFFFFFF ^^^ 0xFFFFFFFF).toNat

theorem crc32_lt (bytes : Bytes) : crc32 bytes < 256 ^ 4 :=
  UInt32.toNat_lt _

/-- The published check value of this CRC. -/
example : crc32 (ascii "123456789") = 0xCBF43926 := by decide +kernel

end Legroom

/-!
## MD5

The compression function over 64-byte blocks, and the digest of a byte string.
-/

namespace Legroom.Md5

def stepConstants : List UInt32 :=
  [0xd76aa478, 0xe8c7b756, 0x242070db, 0xc1bdceee, 0xf57c0faf, 0x4787c62a, 0xa8304613, 0xfd469501,
    0x698098d8, 0x8b44f7af, 0xffff5bb1, 0x895cd7be, 0x6b901122, 0xfd987193, 0xa679438e, 0x49b40821,
    0xf61e2562, 0xc040b340, 0x265e5a51, 0xe9b6c7aa, 0xd62f105d, 0x02441453, 0xd8a1e681, 0xe7d3fbc8,
    0x21e1cde6, 0xc33707d6, 0xf4d50d87, 0x455a14ed, 0xa9e3e905, 0xfcefa3f8, 0x676f02d9, 0x8d2a4c8a,
    0xfffa3942, 0x8771f681, 0x6d9d6122, 0xfde5380c, 0xa4beea44, 0x4bdecfa9, 0xf6bb4b60, 0xbebfbc70,
    0x289b7ec6, 0xeaa127fa, 0xd4ef3085, 0x04881d05, 0xd9d4d039, 0xe6db99e5, 0x1fa27cf8, 0xc4ac5665,
    0xf4292244, 0x432aff97, 0xab9423a7, 0xfc93a039, 0x655b59c3, 0x8f0ccc92, 0xffeff47d, 0x85845dd1,
    0x6fa87e4f, 0xfe2ce6e0, 0xa3014314, 0x4e0811a1, 0xf7537e82, 0xbd3af235, 0x2ad7d2bb, 0xeb86d391]

structure Registers where
  a : UInt32
  b : UInt32
  c : UInt32
  d : UInt32

def Registers.initial : Registers := ⟨0x67452301, 0xefcdab89, 0x98badcfe, 0x10325476⟩

def rotateLeft (word count : UInt32) : UInt32 := word <<< count ||| word >>> (32 - count)

/-- The rotations of a round, one step after the other. -/
def shifts : ℕ → List UInt32
  | 0 => [7, 12, 17, 22]
  | 1 => [5, 9, 14, 20]
  | 2 => [4, 11, 16, 23]
  | _ => [6, 10, 15, 21]

/-- The word of the block that a step reads. -/
def wordIndex (step : ℕ) : ℕ :=
  match step / 16 with
  | 0 => step
  | 1 => (5 * step + 1) % 16
  | 2 => (3 * step + 5) % 16
  | _ => 7 * step % 16

def mix (round : ℕ) (state : Registers) : UInt32 :=
  match round with
  | 0 => state.b &&& state.c ||| ~~~state.b &&& state.d
  | 1 => state.d &&& state.b ||| ~~~state.d &&& state.c
  | 2 => state.b ^^^ state.c ^^^ state.d
  | _ => state.c ^^^ (state.b ||| ~~~state.d)

/-- The steps of a block from the one numbered `number` on. -/
def steps (block : List UInt32) (number : ℕ) (state : Registers) : List UInt32 → Registers
  | [] => state
  | constant :: constants =>
      let sum := state.a + mix (number / 16) state + constant + block.getD (wordIndex number) 0
      let rotated := rotateLeft sum ((shifts (number / 16)).getD (number % 4) 0)
      steps block (number + 1) ⟨state.d, state.b + rotated, state.b, state.c⟩ constants

/-- Little-endian words. -/
def words : Bytes → List UInt32
  | a :: b :: c :: d :: bytes => UInt32.ofNat (fromBe [d, c, b, a]) :: words bytes
  | _ => []

def compress (state : Registers) (block : Bytes) : Registers :=
  let mixed := steps (words block) 0 state stepConstants
  ⟨state.a + mixed.a, state.b + mixed.b, state.c + mixed.c, state.d + mixed.d⟩

/-- The message with its length behind it, in whole blocks. -/
def pad (message : Bytes) : Bytes :=
  message ++ 0x80 :: List.replicate ((119 - message.length % 64) % 64) 0 ++
    (toBe 8 (8 * message.length)).reverse

/-- The state behind a number of blocks. -/
def compressBlocks (state : Registers) (bytes : Bytes) : ℕ → Registers
  | 0 => state
  | blocks + 1 => compressBlocks (compress state (bytes.take 64)) (bytes.drop 64) blocks

def digest (message : Bytes) : Vector Byte 16 :=
  let padded := pad message
  let state := compressBlocks .initial padded (padded.length / 64)
  ⟨((toBe 4 state.a.toNat).reverse ++ (toBe 4 state.b.toNat).reverse ++
    (toBe 4 state.c.toNat).reverse ++ (toBe 4 state.d.toNat).reverse).toArray, by simp⟩

example : (digest (ascii "abc")).toList =
    [0x90, 0x01, 0x50, 0x98, 0x3c, 0xd2, 0x4f, 0xb0, 0xd6, 0x96, 0x3f, 0x7d, 0x28, 0xe1, 0x7f,
      0x72] := by
  decide +kernel

end Legroom.Md5

/-!
## SHA-256

The compression function over 64-byte blocks, and the digest of a byte string.
-/

namespace Legroom.Sha256

def roundConstants : List UInt32 :=
  [0x428a2f98, 0x71374491, 0xb5c0fbcf, 0xe9b5dba5, 0x3956c25b, 0x59f111f1, 0x923f82a4,
    0xab1c5ed5, 0xd807aa98, 0x12835b01, 0x243185be, 0x550c7dc3, 0x72be5d74, 0x80deb1fe,
    0x9bdc06a7, 0xc19bf174, 0xe49b69c1, 0xefbe4786, 0x0fc19dc6, 0x240ca1cc, 0x2de92c6f,
    0x4a7484aa, 0x5cb0a9dc, 0x76f988da, 0x983e5152, 0xa831c66d, 0xb00327c8, 0xbf597fc7,
    0xc6e00bf3, 0xd5a79147, 0x06ca6351, 0x14292967, 0x27b70a85, 0x2e1b2138, 0x4d2c6dfc,
    0x53380d13, 0x650a7354, 0x766a0abb, 0x81c2c92e, 0x92722c85, 0xa2bfe8a1, 0xa81a664b,
    0xc24b8b70, 0xc76c51a3, 0xd192e819, 0xd6990624, 0xf40e3585, 0x106aa070, 0x19a4c116,
    0x1e376c08, 0x2748774c, 0x34b0bcb5, 0x391c0cb3, 0x4ed8aa4a, 0x5b9cca4f, 0x682e6ff3,
    0x748f82ee, 0x78a5636f, 0x84c87814, 0x8cc70208, 0x90befffa, 0xa4506ceb, 0xbef9a3f7,
    0xc67178f2]

structure Registers where
  a : UInt32
  b : UInt32
  c : UInt32
  d : UInt32
  e : UInt32
  f : UInt32
  g : UInt32
  h : UInt32

def Registers.initial : Registers :=
  ⟨0x6a09e667, 0xbb67ae85, 0x3c6ef372, 0xa54ff53a, 0x510e527f, 0x9b05688c, 0x1f83d9ab,
    0x5be0cd19⟩

def rotateRight (word : UInt32) (count : UInt32) : UInt32 :=
  word >>> count ||| word <<< (32 - count)

/-- The next word of the message schedule, behind the last sixteen. -/
def nextWord (window : List UInt32) : UInt32 :=
  let early := window.getD 1 0
  let late := window.getD 14 0
  (rotateRight late 17 ^^^ rotateRight late 19 ^^^ late >>> 10) + window.getD 9 0 +
    (rotateRight early 7 ^^^ rotateRight early 18 ^^^ early >>> 3) + window.getD 0 0

def round (state : Registers) (word constant : UInt32) : Registers :=
  let sum := state.h +
    (rotateRight state.e 6 ^^^ rotateRight state.e 11 ^^^ rotateRight state.e 25) +
    ((state.e &&& state.f) ^^^ (~~~state.e &&& state.g)) + constant + word
  let majority := (rotateRight state.a 2 ^^^ rotateRight state.a 13 ^^^ rotateRight state.a 22) +
    ((state.a &&& state.b) ^^^ (state.a &&& state.c) ^^^ (state.b &&& state.c))
  ⟨sum + majority, state.a, state.b, state.c, state.d + sum, state.e, state.f, state.g⟩

/-- The rounds of a block.  The window holds the words of the next sixteen rounds. -/
def rounds (state : Registers) (window : List UInt32) : List UInt32 → Registers
  | [] => state
  | constant :: constants =>
      rounds (round state (window.getD 0 0) constant) (window.tail ++ [nextWord window]) constants

def words : Bytes → List UInt32
  | a :: b :: c :: d :: bytes => UInt32.ofNat (fromBe [a, b, c, d]) :: words bytes
  | _ => []

def compress (state : Registers) (block : Bytes) : Registers :=
  let mixed := rounds state (words block) roundConstants
  ⟨state.a + mixed.a, state.b + mixed.b, state.c + mixed.c, state.d + mixed.d,
    state.e + mixed.e, state.f + mixed.f, state.g + mixed.g, state.h + mixed.h⟩

/-- The message with its length behind it, in whole blocks. -/
def pad (message : Bytes) : Bytes :=
  message ++ 0x80 :: List.replicate ((119 - message.length % 64) % 64) 0 ++
    toBe 8 (8 * message.length)

/-- The state behind a number of blocks. -/
def compressBlocks (state : Registers) (bytes : Bytes) : ℕ → Registers
  | 0 => state
  | blocks + 1 => compressBlocks (compress state (bytes.take 64)) (bytes.drop 64) blocks

def digest (message : Bytes) : Vector Byte 32 :=
  let padded := pad message
  let state := compressBlocks .initial padded (padded.length / 64)
  ⟨(toBe 4 state.a.toNat ++ toBe 4 state.b.toNat ++ toBe 4 state.c.toNat ++
    toBe 4 state.d.toNat ++ toBe 4 state.e.toNat ++ toBe 4 state.f.toNat ++
    toBe 4 state.g.toNat ++ toBe 4 state.h.toNat).toArray, by simp⟩

example : (digest (ascii "abc")).toList =
    [0xba, 0x78, 0x16, 0xbf, 0x8f, 0x01, 0xcf, 0xea, 0x41, 0x41, 0x40, 0xde, 0x5d, 0xae, 0x22,
      0x23, 0xb0, 0x03, 0x61, 0xa3, 0x96, 0x17, 0x7a, 0x9c, 0xb4, 0x10, 0xff, 0x61, 0xf2, 0x00,
      0x15, 0xad] := by
  decide +kernel

end Legroom.Sha256
