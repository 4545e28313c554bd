/-!
# Byte strings

File contents, digests, paths and environment values are byte strings: lists of octets, with no
encoding promised. Fixed-width words enter them in little-endian order (`littleEndian32`,
`littleEndian64`) or big-endian order (`bigEndian32`, `bigEndian64`), always in full width, so the
length of a word's encoding never depends on its value.
-/

namespace BlobCache

/-- A byte string. -/
abbrev Bytes := List UInt8

/-! ## Words as bytes -/

/-- The four bytes of a 32-bit word, least significant first. -/
def littleEndian32 (n : UInt32) : Bytes :=
  [n.toUInt8, (n >>> 8).toUInt8, (n >>> 16).toUInt8, (n >>> 24).toUInt8]

/-- The eight bytes of a 64-bit word, least significant first. -/
def littleEndian64 (n : UInt64) : Bytes :=
  [n.toUInt8, (n >>> 8).toUInt8, (n >>> 16).toUInt8, (n >>> 24).toUInt8,
    (n >>> 32).toUInt8, (n >>> 40).toUInt8, (n >>> 48).toUInt8, (n >>> 56).toUInt8]

/-- The four bytes of a 32-bit word, most significant first. -/
def bigEndian32 (n : UInt32) : Bytes :=
  [(n >>> 24).toUInt8, (n >>> 16).toUInt8, (n >>> 8).toUInt8, n.toUInt8]

/-- The eight bytes of a 64-bit word, most significant first. -/
def bigEndian64 (n : UInt64) : Bytes :=
  [(n >>> 56).toUInt8, (n >>> 48).toUInt8, (n >>> 40).toUInt8, (n >>> 32).toUInt8,
    (n >>> 24).toUInt8, (n >>> 16).toUInt8, (n >>> 8).toUInt8, n.toUInt8]

/-- A number of 32 bits takes four bytes. -/
@[simp] theorem length_littleEndian32 (n : UInt32) : (littleEndian32 n).length = 4 := rfl

/-- A number of 64 bits takes eight bytes. -/
@[simp] theorem length_littleEndian64 (n : UInt64) : (littleEndian64 n).length = 8 := rfl

/-- With the highest byte first it takes four, too. -/
@[simp] theorem length_bigEndian32 (n : UInt32) : (bigEndian32 n).length = 4 := rfl

/-- A number of 64 bits takes eight with the highest byte first. -/
@[simp] theorem length_bigEndian64 (n : UInt64) : (bigEndian64 n).length = 8 := rfl

end BlobCache
