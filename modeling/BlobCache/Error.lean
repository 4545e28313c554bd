import BlobCache.Path
import BlobCache.SystemError
import BlobCache.Text.Hex

/-!
# Errors

Three kinds of failure, each a type of causes with one text.

* `StoreError`: an operation on a cache file failed. These never leave the cache: they become
  misses, skipped writes and events.
* `LoadError`: a graph could not be turned into a blob.
* `ConfigError`: no place for the cache could be found.
-/

namespace BlobCache

/-! ## Files of the cache -/

/-- Why an operation on a cache file or directory failed. -/
inductive StoreError where
  /-- The operation itself failed. -/
  | io (path : Path) (cause : Cause)
  /-- Someone else holds the lock. -/
  | locked (path : Path) (cause : Cause)
  /-- The path names nothing that can be a cache entry, or the entry does not allow the
  operation. -/
  | invalidFile (path : Path) (reason : String)
  /-- The entry is too short to hold its checksum. -/
  | truncated (path : Path) (size : Nat)
  /-- The checksum in the entry, here in hexadecimal, is not that of its content. -/
  | checksumMismatch (path : Path) (expected actual : String)
  deriving DecidableEq

namespace StoreError

/-- The text of an error. -/
def message : StoreError → String
  | .io path cause => s!"cache I/O error at {path.shown}: {cause.message}"
  | .locked path cause => s!"cache entry {path.shown} is locked: {cause.message}"
  | .invalidFile path reason => s!"invalid cache file {path.shown}: {reason}"
  | .truncated path size => s!"cache entry {path.shown} is truncated: {size} bytes"
  | .checksumMismatch path expected actual =>
    s!"checksum mismatch in {path.shown}: expected {expected}, got {actual}"

/-- The cause behind an error, where there is one. -/
def cause? : StoreError → Option Cause
  | .io _ cause | .locked _ cause => some cause
  | _ => none

/-- Whether the error shows that the entry is damaged, and not merely out of reach. -/
def isCorrupt : StoreError → Bool
  | .truncated .. | .checksumMismatch .. => true
  | _ => false

/-- What stands under a path is not one file with one name. -/
def notSingle (path : Path) : StoreError :=
  .invalidFile path "not a regular file with a single link"

/-- A file that is being written has no settled content to map. -/
def mappingWriter (path : Path) : StoreError :=
  .invalidFile path "cannot map a file opened for writing"

/-- A write of no bytes is a mistake of the writer. -/
def emptyWrite (path : Path) : StoreError := .invalidFile path "refusing an empty write"

/-- An entry without bytes is one whose writer has not begun. -/
def emptyEntry (path : Path) : StoreError := .invalidFile path "entry is empty"

end StoreError

/-! ## Loading and configuration -/

/-- Why a graph could not be turned into a blob. -/
inductive LoadError where
  /-- The request carries no input. -/
  | emptyInput
  /-- No format has this number. -/
  | unsupportedFormat (number : UInt32)
  /-- The compiler failed, with this text. -/
  | compile (text : String)
  deriving DecidableEq

/-- The text of a loading error. -/
def LoadError.message : LoadError → String
  | .emptyInput => "graph input is empty"
  | .unsupportedFormat number => s!"unsupported graph format 0x{Hex.ofNat number.toNat}"
  | .compile text => s!"graph compilation failed: {text}"

/-- The text of what a loading error was caused by. -/
def LoadError.cause? : LoadError → Option String
  | .compile text => some text
  | _ => none

/-- Why no configuration could be found. -/
inductive ConfigError where
  /-- No variable names a place and there is no working directory. -/
  | noDirectory (cause : Cause)
  deriving DecidableEq

/-- The text of a configuration error. -/
def ConfigError.message : ConfigError → String
  | .noDirectory cause => s!"cannot determine cache directory: {cause.message}"

/-- What a configuration error was caused by. -/
def ConfigError.cause : ConfigError → Cause
  | .noDirectory cause => cause

end BlobCache
