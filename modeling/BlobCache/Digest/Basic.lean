import BlobCache.Text.Hex

/-!
# Digests

A digest turns the chunks fed to it into a fixed number of bytes. Nothing more is asked of the
type; what a use of a digest needs beyond that is a law of its own:

* `Digest.Sized`: every answer has the promised length;
* `Digest.Streams`: only the concatenation of the chunks matters.

Most digests are machines that take in bytes one at a time (`Digest.ofMachine`), and those stream.
-/

namespace BlobCache

/-- A function from byte streams to short byte strings. -/
structure Digest where
  /-- The length of every answer. -/
  size : Nat
  /-- The digest of a stream, given in chunks. -/
  ofChunks : List Bytes → Bytes

namespace Digest

/-- The digest of a single byte string. -/
def of (digest : Digest) (bytes : Bytes) : Bytes := digest.ofChunks [bytes]

/-! ## Laws -/

/-- Every answer has the promised length. -/
def Sized (digest : Digest) : Prop := ∀ chunks, (digest.ofChunks chunks).length = digest.size

/-- Chunks are digested as their concatenation. -/
def Streams (digest : Digest) : Prop :=
  ∀ chunks, digest.ofChunks chunks = digest.of chunks.flatten

/-- The digest of a machine that takes in one byte at a time. -/
def ofMachine {σ : Type} (size : Nat) (start : σ) (absorb : σ → UInt8 → σ) (finish : σ → Bytes) :
    Digest where
  size := size
  ofChunks chunks := finish (chunks.foldl (fun state chunk => chunk.foldl absorb state) start)

/-- What is absorbed byte by byte does not depend on how the bytes come in chunks. -/
theorem streams_ofMachine {σ : Type} (size : Nat) (start : σ) (absorb : σ → UInt8 → σ)
    (finish : σ → Bytes) : (ofMachine size start absorb finish).Streams := by
  intro chunks
  simp only [ofMachine, of, List.foldl_cons, List.foldl_nil]
  congr 1
  induction chunks generalizing start with
  | nil => rfl
  | cons chunk rest ih => simp [ih]

/-! ## Printed forms -/

/-- A digest abbreviated to its first two bytes, or in full if it is shorter. -/
def abbreviated (bytes : Bytes) : String :=
  match bytes with
  | a :: b :: _ => s!"DigestBytes({Hex.encode [a, b]}..)"
  | short => s!"DigestBytes({Hex.encode short})"

end Digest

end BlobCache
