import BlobCache.Cache.Access

/-!
# Loading a graph

A native input is its own blob. An intermediate one is looked up in the cache and compiled if it is
not there, and the new blob is then offered to the cache. Trouble with the cache never fails a load:
only an empty input and the compiler do.
-/

namespace BlobCache

/-- What the cache did for a load. -/
inductive LoadStatus where
  /-- It was not asked. -/
  | bypassed
  /-- It had the blob. -/
  | hit
  /-- It took the compiled blob. -/
  | stored
  /-- It did not take the compiled blob. -/
  | notStored
  deriving DecidableEq

/-- The name of a status. -/
def LoadStatus.name : LoadStatus → String
  | .bypassed => "Bypassed"
  | .hit => "Hit"
  | .stored => "Stored"
  | .notStored => "NotStored"

/-- A loaded graph. -/
structure Loaded (φ : Type) where
  /-- The blob for the device. -/
  blob : Blob φ
  /-- How it was come by. -/
  status : LoadStatus

namespace Cache

variable {m : Type → Type} [Monad m] {φ : Type}

/-- Offers a compiled blob to the cache. -/
def offer (host : Host m φ) (cache : Cache) (key : Key) (blob : Bytes) : m LoadStatus := do
  match ← set host cache key blob with
  | .stored _ => return .stored
  | outcome =>
    host.report (.notCached outcome)
    return .notStored

/-- The blob of a request. `compile` runs the compiler, which answers a blob or the text of its
error, and `compiler` is what it says of itself. -/
def load (host : Host m φ) (cache : Cache) (compiler : Option Compiler)
    (compile : m (Except String Bytes)) (request : Request) :
    m (Except LoadError (Loaded φ)) := do
  if request.input.isEmpty then return .error .emptyInput
  else if request.format = .native then return .ok ⟨.owned request.input, .bypassed⟩
  else if request.flags.contains .disableCaching then
    host.report .cachingDisabled
    match ← compile with
    | .error text => return .error (.compile text)
    | .ok blob => return .ok ⟨.owned blob, .bypassed⟩
  else
    let key := cache.keyOf compiler request
    match ← get host cache key with
    | some blob => return .ok ⟨blob, .hit⟩
    | none =>
      match ← compile with
      | .error text => return .error (.compile text)
      | .ok blob => return .ok ⟨.owned blob, ← offer host cache key blob⟩

end Cache

end BlobCache
