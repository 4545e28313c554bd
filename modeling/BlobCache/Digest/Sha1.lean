import BlobCache.Digest.Basic

/-!
# SHA-1

The 160-bit Secure Hash Algorithm. The message is padded with a one bit, zeros and its length in
bits to whole blocks of 64 bytes, and each block in turn is mixed into a chaining value of five
words. The state keeps the bytes of the unfinished block, so a message can come in any chunks.
-/

namespace BlobCache.Sha1

/-! ## One block -/

/-- The chaining value. -/
structure Chain where
  /-- The first word. -/
  a : UInt32
  /-- The second word. -/
  b : UInt32
  /-- The third word. -/
  c : UInt32
  /-- The fourth word. -/
  d : UInt32
  /-- The fifth word. -/
  e : UInt32

/-- The chaining value before the first block. -/
def initial : Chain := ⟨0x67452301, 0xEFCDAB89, 0x98BADCFE, 0x10325476, 0xC3D2E1F0⟩

/-- Rotates a word to the left by fewer than 32 places. -/
def rotate (n : UInt32) (x : UInt32) : UInt32 := (x <<< n) ||| (x >>> (32 - n))

/-- The bytes of a block as big-endian words. -/
def words : Bytes → List UInt32
  | a :: b :: c :: d :: rest =>
    (a.toUInt32 <<< 24 ||| b.toUInt32 <<< 16 ||| c.toUInt32 <<< 8 ||| d.toUInt32) :: words rest
  | _ => []

/-- Extends a message schedule, kept newest word first. -/
def extend (schedule : List UInt32) : List UInt32 :=
  let word (i : Nat) : UInt32 := schedule.getD i 0
  rotate 1 (word 2 ^^^ word 7 ^^^ word 13 ^^^ word 15) :: schedule

/-- The eighty words of the message schedule of a block. -/
def schedule (block : Bytes) : List UInt32 :=
  (Nat.repeat extend 64 (words block).reverse).reverse

/-- The function and the constant of a round. -/
def roundOf (t : Nat) (b c d : UInt32) : UInt32 × UInt32 :=
  if t < 20 then ((b &&& c) ||| (~~~b &&& d), 0x5A827999)
  else if t < 40 then (b ^^^ c ^^^ d, 0x6ED9EBA1)
  else if t < 60 then ((b &&& c) ||| (b &&& d) ||| (c &&& d), 0x8F1BBCDC)
  else (b ^^^ c ^^^ d, 0xCA62C1D6)

/-- One round. -/
def round (t : Nat) (h : Chain) (word : UInt32) : Chain :=
  let (f, k) := roundOf t h.b h.c h.d
  ⟨rotate 5 h.a + f + h.e + k + word, h.a, rotate 30 h.b, h.c, h.d⟩

/-- The rounds for the rest of a schedule. -/
def rounds : Nat → Chain → List UInt32 → Chain
  | _, h, [] => h
  | t, h, word :: rest => rounds (t + 1) (round t h word) rest

/-- Mixes a block of 64 bytes into the chaining value. -/
def compress (h : Chain) (block : Bytes) : Chain :=
  let r := rounds 0 h (schedule block)
  ⟨h.a + r.a, h.b + r.b, h.c + r.c, h.d + r.d, h.e + r.e⟩

/-! ## Whole messages -/

/-- A message that has been taken in so far. -/
structure State where
  /-- The chaining value after the finished blocks. -/
  chain : Chain
  /-- The bytes of the unfinished block, newest first. -/
  pending : Bytes
  /-- How many bytes the unfinished block has. -/
  filled : Nat
  /-- How many bytes the message has. -/
  length : Nat

/-- The empty message. -/
def start : State := ⟨initial, [], 0, 0⟩

/-- Takes in one byte. -/
def absorb (s : State) (b : UInt8) : State :=
  if s.filled = 63 then ⟨compress s.chain (b :: s.pending).reverse, [], 0, s.length + 1⟩
  else ⟨s.chain, b :: s.pending, s.filled + 1, s.length + 1⟩

/-- What follows a message of some length to fill its last block. -/
def padding (length : Nat) : Bytes :=
  0x80 :: (List.replicate ((119 - length % 64) % 64) 0 ++ bigEndian64 (UInt64.ofNat (8 * length)))

/-- The digest of the message taken in. -/
def finish (s : State) : Bytes :=
  let h := ((padding s.length).foldl absorb s).chain
  bigEndian32 h.a ++ bigEndian32 h.b ++ bigEndian32 h.c ++ bigEndian32 h.d ++ bigEndian32 h.e

/-- SHA-1 as a digest. -/
def digest : Digest := .ofMachine 20 start absorb finish

/-- A checksum has twenty bytes. -/
theorem sized_digest : digest.Sized := fun _ => rfl

/-- Checksums of chunks are those of all the bytes together. -/
theorem streams_digest : digest.Streams := Digest.streams_ofMachine _ _ _ _

end BlobCache.Sha1
