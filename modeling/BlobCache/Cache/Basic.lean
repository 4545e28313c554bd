import BlobCache.Cache.Blob
import BlobCache.Config.Basic
import BlobCache.Digest.Sha1

/-!
# Caches

Whether a cache is of use is decided once, when it is opened: it needs a directory that exists or
can be made. A disabled cache answers every operation without touching anything. The directory is
the only record of what is in the cache; nothing is remembered between operations.
-/

namespace BlobCache

/-! ## State -/

/-- Whether a cache can be used. -/
inductive CacheState where
  /-- It cannot; every operation does nothing. -/
  | disabled
  /-- The entries are files in a directory and should not take more bytes than the budget. -/
  | enabled (directory : Path) (budget : UInt64)
  deriving DecidableEq

namespace CacheState

/-- The cache directory. -/
def directory? : CacheState → Option Path
  | .disabled => none
  | .enabled directory _ => some directory

/-- The budget; none for a disabled cache. -/
def budget : CacheState → UInt64
  | .disabled => 0
  | .enabled _ budget => budget

/-- Whether the cache can be used. -/
def isEnabled (state : CacheState) : Bool := state.directory?.isSome

variable {m : Type → Type} [Monad m] {φ : Type}

/-- Makes the cache directory. A cache without one, or whose directory cannot be made, is disabled
for good; that is reported once, here. -/
def ofConfig (host : Host m φ) (config : Config) : m CacheState := do
  match config.usableDirectory with
  | none =>
    host.report .pathEmpty
    return .disabled
  | some directory =>
    match ← host.createDirectories directory with
    | .error error =>
      host.report (.directoryNotMade error)
      return .disabled
    | .ok () =>
      host.report (.initialized directory config.budget)
      return .enabled directory config.budget

end CacheState

/-! ## Caches -/

/-- A cache of compiled blobs. -/
structure Cache where
  /-- Whether and where entries are kept. -/
  state : CacheState
  /-- The digest behind keys and checksums. -/
  digest : Digest
  /-- The driver version that goes into keys. -/
  version : UInt32

namespace Cache

variable {m : Type → Type} [Monad m] {φ : Type}

/-- The cache of a configuration. -/
def ofConfig (host : Host m φ) (digest : Digest) (config : Config) : m Cache := do
  return ⟨← CacheState.ofConfig host config, digest, Key.driverVersion⟩

/-- Reports the events, in order. -/
def reportAll (host : Host m φ) : List Event → m Unit
  | [] => return ()
  | event :: rest => do
    host.report event
    reportAll host rest

/-- The configuration that an environment asks for. Where no place can be found the cache is off. -/
def configOf (host : Host m φ) (env : Environment) : m Config := do
  reportAll host (Config.eventsOfEnvironment env)
  match Config.ofEnvironment env with
  | .ok config => return config
  | .error error =>
    host.report (.unresolved error)
    return .disabled

/-- The cache that an environment asks for. -/
def ofEnvironment (host : Host m φ) (digest : Digest) (env : Environment) : m Cache := do
  ofConfig host digest (← configOf host env)

/-- The key of a request. A disabled cache has only the empty key to give. -/
def keyOf (cache : Cache) (compiler : Option Compiler) (request : Request) : Key :=
  if cache.state.isEnabled then Key.derive cache.digest cache.version compiler request
  else .empty

/-- The path of an entry in a directory. -/
def entryPath (directory : Path) (key : Key) : Path := Path.join directory key.fileName

end Cache

end BlobCache
