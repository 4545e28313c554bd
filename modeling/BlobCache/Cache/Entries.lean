import BlobCache.Cache.Basic

/-!
# Entries

An entry is a file that holds a blob and after it the digest of the blob; there is no header. The
length of the digest is known, so the two can be told apart (`Entry.splitAt`).

Entries are listed least recently used first: by access time, and among equals by the bytes of their
names (`Entry.before`).
-/

namespace BlobCache

/-! ## Layout -/

namespace Entry

/-- The content of the file of a blob. -/
def encode (digest : Digest) (blob : Bytes) : Bytes := blob ++ digest.of blob

/-- The blob and the checksum in the content of a file. -/
def splitAt (digest : Digest) (content : Bytes) : Bytes × Bytes :=
  let length := content.length - digest.size
  (content.take length, content.drop length)

/-! ## Order -/

/-- Whether an entry is listed before another: used longer ago, or at the same time and with the
lesser name. -/
def before (a b : Entry) : Bool :=
  a.accessed < b.accessed || (a.accessed == b.accessed && Utf8.encode a.name ≤ Utf8.encode b.name)

/-- Entries in the order of use. -/
def inOrder (entries : List Entry) : List Entry := entries.mergeSort before

/-- The sum of all sizes. -/
def totalSize (entries : List Entry) : Nat :=
  entries.foldr (fun entry total => entry.size + total) 0

end Entry

namespace Cache

variable {m : Type → Type} [Monad m] {φ : Type}

/-! ## Listing -/

/-- Lists a directory; what was seen before an error counts. -/
def listed (host : Host m φ) (directory : Path) : m (List Entry) := do
  let listing ← host.list directory
  match listing.error with
  | none => return listing.entries
  | some error =>
    host.report (.scanFailed error)
    return listing.entries

/-- The bytes that all entries of a directory take. -/
def sizeOf (host : Host m φ) (directory : Path) : m Nat := do
  return Entry.totalSize (← listed host directory)

/-- The entries of a directory, least recently used first. -/
def entriesOf (host : Host m φ) (directory : Path) : m (List Entry) := do
  return Entry.inOrder (← listed host directory)

/-- The bytes that all entries take. -/
def size (host : Host m φ) (cache : Cache) : m Nat :=
  match cache.state.directory? with
  | none => return 0
  | some directory => sizeOf host directory

/-- All entries, least recently used first. -/
def entries (host : Host m φ) (cache : Cache) : m (List Entry) :=
  match cache.state.directory? with
  | none => return []
  | some directory => entriesOf host directory

/-! ## Reading -/

/-- Reads an entry and checks its content against its checksum. The blob that comes out owns the
open file; on every failure the file is closed again. -/
def readEntry (host : Host m φ) (digest : Digest) (path : Path) :
    m (Except StoreError (Blob φ)) := do
  match ← host.openShared path with
  | .error error => return .error error
  | .ok file =>
    let size ← host.size file
    if size = 0 then
      host.close file
      return .error (.emptyEntry path)
    else if size < digest.size then
      host.close file
      return .error (.truncated path size)
    else
      match ← host.map file with
      | .error error =>
        host.close file
        return .error error
      | .ok content =>
        let (blob, checksum) := Entry.splitAt digest content
        let actual := digest.of blob
        if actual = checksum then return .ok (.mapped file blob.length)
        else
          host.close file
          return .error (.checksumMismatch path (Hex.encode checksum) (Hex.encode actual))

end Cache

end BlobCache
