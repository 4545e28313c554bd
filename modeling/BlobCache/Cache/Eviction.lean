import BlobCache.Cache.Entries

/-!
# Eviction

Room is made by removing entries, least recently used first, until enough bytes are free. An entry
that someone else has locked is passed over, and so is one that cannot be removed; neither counts as
freed.
-/

namespace BlobCache.Cache

variable {m : Type → Type} [Monad m] {φ : Type}

/-- More than any cache holds. -/
def everything : Nat := Numeral.limit64 - 1

/-- Evicts from the rest of a list of entries, where `freed` bytes are free already. -/
def evictFrom (host : Host m φ) (directory : Path) (needed : Nat) : List Entry → Nat → m Nat
  | [], freed => return freed
  | entry :: rest, freed => do
    let path := Path.join directory (Path.ofText entry.name)
    match ← host.openExclusive path with
    | .error error =>
      host.report (.busy entry.name error)
      evictFrom host directory needed rest freed
    | .ok file =>
      let size ← host.size file
      match ← host.remove path with
      | .error error =>
        host.report (.notEvicted entry.name error)
        host.close file
        evictFrom host directory needed rest freed
      | .ok () =>
        host.report (.evicted entry.name entry.accessed size)
        host.close file
        if needed ≤ freed + size then return freed + size
        else evictFrom host directory needed rest (freed + size)

/-- Evicts entries of a directory until `needed` bytes are free, and gives the bytes freed. -/
def evict (host : Host m φ) (directory : Path) (needed : Nat) : m Nat := do
  evictFrom host directory needed (← entriesOf host directory) 0

/-- Evicts entries until the cache fits its budget, and gives the bytes freed. -/
def trim (host : Host m φ) (cache : Cache) : m Nat := do
  match cache.state.directory? with
  | none => return 0
  | some directory =>
    let size ← sizeOf host directory
    let budget := cache.state.budget.toNat
    if size ≤ budget then return 0 else evict host directory (size - budget)

/-- Evicts every entry that nobody has locked, and gives the bytes freed. -/
def clear (host : Host m φ) (cache : Cache) : m Nat :=
  match cache.state.directory? with
  | none => return 0
  | some directory => evict host directory everything

end BlobCache.Cache
