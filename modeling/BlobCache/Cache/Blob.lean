import BlobCache.Cache.Host

/-!
# Blobs

A blob is either a byte string of its own or the first part of a mapped cache entry. A mapped blob
owns the open file, and with it the shared lock that keeps the entry from being evicted, until it is
released. Whoever reads a blob need not know which kind it is.
-/

namespace BlobCache

/-- A compiled binary. -/
inductive Blob (φ : Type) where
  /-- Bytes held in memory. -/
  | owned (bytes : Bytes)
  /-- The first `length` bytes of a mapped entry, which is open as `file`. -/
  | mapped (file : φ) (length : Nat)
  deriving DecidableEq

namespace Blob

variable {m : Type → Type} [Monad m] {φ : Type}

/-- Whether the blob is part of a cache entry. -/
def isMapped : Blob φ → Bool
  | .owned _ => false
  | .mapped .. => true

/-- The number of bytes. -/
def length : Blob φ → Nat
  | .owned bytes => bytes.length
  | .mapped _ length => length

/-- The bytes. -/
def read (host : Host m φ) : Blob φ → m Bytes
  | .owned bytes => return bytes
  | .mapped file length => do
    let view ← host.mapped file
    return (view.getD []).take length

/-- Gives back what the blob holds. -/
def release (host : Host m φ) : Blob φ → m Unit
  | .owned _ => return ()
  | .mapped file _ => host.close file

/-- A blob as a message shows it. -/
def summary (blob : Blob φ) : String :=
  let backing := if blob.isMapped then "mapped" else "owned"
  s!"Blob({backing}, {blob.length} bytes)"

end Blob

end BlobCache
