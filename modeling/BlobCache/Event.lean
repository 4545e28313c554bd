import BlobCache.Cache.Outcome
import BlobCache.Error
import BlobCache.Key
import BlobCache.Text.Quoted

/-!
# Events

What the cache does on its own, and what it keeps from its callers, it reports as events. An event
has a level, a message and named fields.
-/

namespace BlobCache

/-- Something the cache reports. -/
inductive Event where
  /-- The configuration turns the cache off. -/
  | pathEmpty
  /-- The cache directory could not be made. -/
  | directoryNotMade (error : StoreError)
  /-- No place for the cache could be found. -/
  | unresolved (error : ConfigError)
  /-- The cache is ready. -/
  | initialized (path : Path) (budget : UInt64)
  /-- The variable for the budget holds no number of bytes. -/
  | budgetUnreadable (value : Bytes)
  /-- A blob was found. -/
  | hit (key : Key) (size : Nat)
  /-- An entry that was asked for is damaged. -/
  | corruptMiss (key : Key) (error : StoreError)
  /-- An entry that was asked for could not be had. -/
  | miss (key : Key) (error : StoreError)
  /-- A blob alone exceeds the budget. -/
  | blobTooLarge (key : Key) (size : Nat) (budget : UInt64)
  /-- The file of an entry could not be created. -/
  | notCreated (key : Key) (error : StoreError)
  /-- The file of an entry could not be written. -/
  | notWritten (key : Key) (error : StoreError)
  /-- A blob was stored; `total` is the size of the cache with it. -/
  | stored (key : Key) (size total : Nat)
  /-- A check found a damaged entry. -/
  | corruptFound (name : String) (error : StoreError)
  /-- A check could not read an entry. -/
  | unverified (name : String) (error : StoreError)
  /-- An entry could not be had for eviction. -/
  | busy (name : String) (error : StoreError)
  /-- An entry could not be removed. -/
  | notEvicted (name : String) (error : StoreError)
  /-- An entry was removed to make room. -/
  | evicted (name : String) (accessed : Int) (size : Nat)
  /-- The cache directory could not be listed. -/
  | scanFailed (error : StoreError)
  /-- A request asked for the cache to be left alone. -/
  | cachingDisabled
  /-- A compiled blob did not get into the cache. -/
  | notCached (outcome : SetOutcome)

/-- How much an event matters. -/
inductive Level where
  /-- For those who follow every step. -/
  | debug
  /-- The normal course of things. -/
  | info
  /-- Something is wrong, though the caller does not notice. -/
  | warn
  deriving DecidableEq

/-- The value of a field. -/
inductive Field where
  /-- A number. -/
  | number (n : Nat)
  /-- A text. -/
  | text (s : String)

/-- The whole seconds since the epoch in a time given in nanoseconds; none before the epoch. -/
def unixSeconds (time : Int) : Nat := (time / 1000000000).toNat

namespace Level

/-- The name of a level. -/
def name : Level → String
  | .debug => "DEBUG"
  | .info => "INFO"
  | .warn => "WARN"

end Level

namespace Event

/-- How much an event matters. -/
def level : Event → Level
  | .pathEmpty | .directoryNotMade _ | .unresolved _ | .budgetUnreadable _ | .corruptMiss ..
  | .notWritten .. | .corruptFound .. | .scanFailed _ => .warn
  | .initialized .. | .stored .. => .info
  | .hit .. | .miss .. | .blobTooLarge .. | .notCreated .. | .unverified .. | .busy ..
  | .notEvicted .. | .evicted .. | .cachingDisabled | .notCached _ => .debug

/-- What an event says. -/
def message : Event → String
  | .pathEmpty => "cache path is empty, disabling cache"
  | .directoryNotMade _ => "failed to create cache directory, disabling cache"
  | .unresolved _ => "cannot resolve cache directory, disabling cache"
  | .initialized .. => "cache is initialized"
  | .budgetUnreadable _ =>
    "ignoring unparsable ZE_INTEL_NPU_CACHE_SIZE, using default of 4294967296 bytes"
  | .hit .. => "cache hit"
  | .corruptMiss .. => "cache miss: corrupt entry, removing it"
  | .miss .. => "cache miss"
  | .blobTooLarge .. => "blob exceeds cache budget, not caching"
  | .notCreated .. => "cannot create cache entry, skipping"
  | .notWritten .. => "failed to write cache entry, removing it"
  | .stored .. => "cache set"
  | .corruptFound .. => "removing corrupt cache entry"
  | .unverified .. => "cannot verify cache entry"
  | .busy .. => "skipping busy cache entry"
  | .notEvicted .. => "failed to evict cache entry"
  | .evicted .. => "evicted cache entry"
  | .scanFailed _ => "failed to scan cache directory"
  | .cachingDisabled => "caching disabled by graph flags"
  | .notCached _ => "compiled blob not cached"

/-- The fields of an event, in order. -/
def fields : Event → List (String × Field)
  | .pathEmpty | .cachingDisabled => []
  | .unresolved error => [("err", .text error.message)]
  | .directoryNotMade error | .scanFailed error => [("err", .text error.message)]
  | .initialized path budget =>
    [("path", .text path.shown), ("max_size", .number budget.toNat)]
  | .budgetUnreadable value => [("value", .text (Quoted.ofBytes value))]
  | .hit key size => [("key", .text key.text), ("size", .number size)]
  | .corruptMiss key error | .miss key error | .notCreated key error | .notWritten key error =>
    [("key", .text key.text), ("err", .text error.message)]
  | .blobTooLarge key size budget =>
    [("key", .text key.text), ("size", .number size), ("max_size", .number budget.toNat)]
  | .stored key size total =>
    [("key", .text key.text), ("data_size", .number size), ("cache_size", .number total)]
  | .corruptFound name error | .unverified name error | .busy name error
  | .notEvicted name error => [("name", .text name), ("err", .text error.message)]
  | .evicted name accessed size =>
    [("name", .text name), ("last_access", .number (unixSeconds accessed)),
      ("size", .number size)]
  | .notCached outcome => [("outcome", .text outcome.title)]

end Event

end BlobCache
