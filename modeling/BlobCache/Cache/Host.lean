import BlobCache.Event

/-!
# What the cache needs from its host

The cache never touches a file itself. It asks a `Host`, whose operations may each fail, and reports
events to it. Locks are taken without waiting: that one is held elsewhere is an ordinary answer
(`StoreError.locked`). A lock is held as long as its file is open, so whoever opens a file closes
it.

The host works in a monad `m`: a state for reasoning, `IO` for the tool.
-/

namespace BlobCache

/-- A regular file in the cache directory. -/
structure Entry where
  /-- Its name, which is the key. -/
  name : String
  /-- Its size, checksum included. -/
  size : Nat
  /-- Its access time, in nanoseconds since the epoch. -/
  accessed : Int
  deriving DecidableEq

/-- What listing a directory gave. -/
structure Listing where
  /-- The regular files seen, in no particular order. -/
  entries : List Entry
  /-- Why the listing broke off, if it did. -/
  error : Option StoreError

/-- The operations that a cache is built on; `φ` is the type of open files. -/
structure Host (m : Type → Type) (φ : Type) where
  /-- Makes a directory and its missing parents. -/
  createDirectories : Path → m (Except StoreError Unit)
  /-- Opens an existing file for reading under a shared lock. -/
  openShared : Path → m (Except StoreError φ)
  /-- Opens an existing file for reading under an exclusive lock. -/
  openExclusive : Path → m (Except StoreError φ)
  /-- Creates a file, which must not exist yet, for writing under an exclusive lock. -/
  create : Path → m (Except StoreError φ)
  /-- Removes a file without regard to locks. -/
  remove : Path → m (Except StoreError Unit)
  /-- Lists the regular files directly in a directory. -/
  list : Path → m Listing
  /-- The size of an open file, with what was written through it. -/
  size : φ → m Nat
  /-- Maps the whole of an open file for reading and gives its bytes. -/
  map : φ → m (Except StoreError Bytes)
  /-- The bytes of a mapping made before. -/
  mapped : φ → m (Option Bytes)
  /-- Appends to an open file. -/
  write : φ → Bytes → m (Except StoreError Unit)
  /-- Closes a file and gives back its lock. -/
  close : φ → m Unit
  /-- Takes note of an event. -/
  report : Event → m Unit

end BlobCache
