import BlobCache.Cache.Eviction

/-!
# Looking up, storing and checking

`get` answers a blob or nothing: whatever is wrong with an entry is a miss, and an entry that is
damaged is removed so that the next `set` can put a good one in its place. `set` never replaces an
entry and never fails its caller. `verify` reads every entry as `get` would and removes those that
are damaged.
-/

namespace BlobCache.Cache

variable {m : Type → Type} [Monad m] {φ : Type}

/-! ## Looking up -/

/-- Looks up a blob. -/
def get (host : Host m φ) (cache : Cache) (key : Key) : m (Option (Blob φ)) := do
  match cache.state.directory? with
  | none => return none
  | some directory =>
    if key.isEmpty then return none
    else
      let path := entryPath directory key
      match ← readEntry host cache.digest path with
      | .ok blob =>
        host.report (.hit key blob.length)
        return some blob
      | .error error =>
        if error.isCorrupt then
          host.report (.corruptMiss key error)
          let _ ← host.remove path
          return none
        else
          host.report (.miss key error)
          return none

/-! ## Storing -/

/-- What becomes of a blob whose file could not be created. -/
def outcomeOfRefusal : StoreError → SetOutcome
  | .io _ (.system error) =>
    if error = .alreadyExists then .skipped .alreadyCached else .failed
  | .locked .. => .skipped .locked
  | _ => .failed

/-- Writes a blob and its checksum. -/
def writeEntry (host : Host m φ) (digest : Digest) (file : φ) (blob : Bytes) :
    m (Except StoreError Unit) := do
  match ← host.write file blob with
  | .error error => return .error error
  | .ok () => host.write file (digest.of blob)

/-- Makes room for `added` bytes and gives the size that the cache then has. -/
def makeRoom (host : Host m φ) (directory : Path) (budget added : Nat) : m Nat := do
  let size ← sizeOf host directory
  if size + added ≤ budget then return size
  else
    let freed ← evict host directory (size + added - budget)
    return size - freed

/-- Puts a blob into a new entry of a directory that holds `size` bytes. -/
def addEntry (host : Host m φ) (digest : Digest) (directory : Path) (size : Nat) (key : Key)
    (blob : Bytes) : m SetOutcome := do
  let path := entryPath directory key
  match ← host.create path with
  | .error error =>
    host.report (.notCreated key error)
    return outcomeOfRefusal error
  | .ok file =>
    match ← writeEntry host digest file blob with
    | .error error =>
      host.report (.notWritten key error)
      let _ ← host.remove path
      host.close file
      return .failed
    | .ok () =>
      let added := blob.length + digest.size
      host.report (.stored key blob.length (size + added))
      host.close file
      return .stored added

/-- Stores a blob, after evicting old entries to make room. -/
def set (host : Host m φ) (cache : Cache) (key : Key) (blob : Bytes) : m SetOutcome := do
  match cache.state with
  | .disabled => return .skipped .disabled
  | .enabled directory budget =>
    if key.isEmpty then return .skipped .emptyKey
    else if blob.isEmpty then return .skipped .emptyBlob
    else if budget.toNat < blob.length then
      host.report (.blobTooLarge key blob.length budget)
      return .skipped .tooLarge
    else
      let size ← makeRoom host directory budget.toNat (blob.length + cache.digest.size)
      addEntry host cache.digest directory size key blob

/-! ## Checking -/

/-- What a check of all entries found. -/
structure VerifyReport where
  /-- How many entries are sound. -/
  valid : Nat
  /-- The names of the damaged entries, in the order in which they were removed. -/
  corrupt : List String
  /-- How many entries could not be read. -/
  skipped : Nat
  deriving DecidableEq

/-- Checks the rest of a list of entries and adds to what was found. -/
def verifyFrom (host : Host m φ) (digest : Digest) (directory : Path) :
    List Entry → VerifyReport → m VerifyReport
  | [], found => return found
  | entry :: rest, found => do
    let path := Path.join directory (Path.ofText entry.name)
    match ← readEntry host digest path with
    | .ok blob =>
      blob.release host
      verifyFrom host digest directory rest { found with valid := found.valid + 1 }
    | .error error =>
      if error.isCorrupt then
        host.report (.corruptFound entry.name error)
        let _ ← host.remove path
        verifyFrom host digest directory rest
          { found with corrupt := found.corrupt ++ [entry.name] }
      else
        host.report (.unverified entry.name error)
        verifyFrom host digest directory rest { found with skipped := found.skipped + 1 }

/-- Checks every entry and removes the damaged ones. -/
def verify (host : Host m φ) (cache : Cache) : m VerifyReport := do
  match cache.state.directory? with
  | none => return ⟨0, [], 0⟩
  | some directory =>
    verifyFrom host cache.digest directory (← entriesOf host directory) ⟨0, [], 0⟩

end BlobCache.Cache
