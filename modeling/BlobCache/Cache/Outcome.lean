import BlobCache.Bytes

/-!
# Outcomes of storing a blob

Storing never fails its caller. It answers what became of the blob.
-/

namespace BlobCache

/-- Why nothing was stored. -/
inductive SkipReason where
  /-- There is no cache. -/
  | disabled
  /-- The key stands for "do not cache". -/
  | emptyKey
  /-- The blob has no bytes. -/
  | emptyBlob
  /-- The blob alone exceeds the budget. -/
  | tooLarge
  /-- Something has the name of the entry already. -/
  | alreadyCached
  /-- Someone else holds the lock of the entry. -/
  | locked
  deriving DecidableEq

namespace SkipReason

/-- The reason as reports for programs spell it. -/
def code : SkipReason → String
  | .disabled => "disabled"
  | .emptyKey => "empty_key"
  | .emptyBlob => "empty_blob"
  | .tooLarge => "too_large"
  | .alreadyCached => "already_cached"
  | .locked => "locked"

/-- The reason as messages for people spell it. -/
def title : SkipReason → String
  | .disabled => "Disabled"
  | .emptyKey => "EmptyKey"
  | .emptyBlob => "EmptyBlob"
  | .tooLarge => "TooLarge"
  | .alreadyCached => "AlreadyCached"
  | .locked => "Locked"

end SkipReason

/-- What became of a blob that was to be stored. -/
inductive SetOutcome where
  /-- It is in an entry of this size, checksum included. -/
  | stored (size : Nat)
  /-- Nothing was written. -/
  | skipped (reason : SkipReason)
  /-- Writing failed, and what had been written was removed. -/
  | failed
  deriving DecidableEq

/-- The outcome as an event shows it. -/
def SetOutcome.title : SetOutcome → String
  | .stored size => s!"Stored \x7b bytes: {size} \x7d"
  | .skipped reason => s!"Skipped({reason.title})"
  | .failed => "Failed"

end BlobCache
