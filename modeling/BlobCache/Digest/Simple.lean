import BlobCache.Digest.Basic

/-!
# Digests for experiments

Two digests that show what the cache asks of a digest and what it does not. `weightedSum` is short
and easily made to collide; `blank` gives no bytes at all, so an entry carries no checksum.
-/

namespace BlobCache.Digest

/-- A running sum of bytes, each multiplied by its position. -/
structure Weighted where
  /-- The sum. -/
  sum : UInt32
  /-- The position of the next byte, counted from one. -/
  position : UInt32

/-- The sum of all bytes, each multiplied by its position counted from one, modulo 2^32. -/
def weightedSum : Digest :=
  .ofMachine 4 (⟨0, 1⟩ : Weighted)
    (fun s b => ⟨s.sum + b.toUInt32 * s.position, s.position + 1⟩)
    (fun s => bigEndian32 s.sum)

/-- No bytes, whatever the stream. -/
def blank : Digest := ⟨0, fun _ => []⟩

/-- A weighted sum has four bytes. -/
theorem sized_weightedSum : weightedSum.Sized := fun _ => rfl

/-- The weighted sum of chunks is that of all the bytes together. -/
theorem streams_weightedSum : weightedSum.Streams := streams_ofMachine _ _ _ _

/-- The blank digest is never longer than nothing. -/
theorem sized_blank : blank.Sized := fun _ => rfl

/-- However the bytes come, the blank digest gives none. -/
theorem streams_blank : blank.Streams := fun _ => rfl

end BlobCache.Digest
