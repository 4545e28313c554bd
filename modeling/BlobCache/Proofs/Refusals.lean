import BlobCache.Machine.Faults
import BlobCache.Proofs.Listing

/-!
# Operations that are refused

A refused operation is not begun, so a program goes on from the same machine with an error in hand
(`Machine.refusing_of_contains`), and where nothing is refused the host is the machine itself
(`Machine.faultyHost_none`). What a host refuses it refuses by name, and the name of an entry is the
last component of its path (`Faults.lastName_join`).

Faults are `Truthful` if directories are listed as they are; whatever else they refuse, a cache then
sees the sizes and the entries that there are (`Cache.sizeOf_truthful`, `Cache.entriesOf_truthful`).
-/

namespace BlobCache

namespace Machine

/-- Refusing nothing is the plain host. -/
theorem faultyHost_none : faultyHost Faults.none = host := by
  have hfalsify : ∀ entries, Faults.falsify [] entries = entries := by
    intro entries
    unfold Faults.falsify
    simp
  have hlist : (faultyHost Faults.none).list = host.list := by
    funext path m
    show ({ m.fs.listEntries path with
      entries := Faults.falsify [] (m.fs.listEntries path).entries }, m) = _
    rw [hfalsify]
    rfl
  have hrest : { faultyHost Faults.none with list := host.list } = host := rfl
  rw [← hrest, ← hlist]

section refusing

variable {α : Type} {names : List Bytes} {path : Path}

/-- What is refused leaves the machine as it was. -/
theorem refusing_of_contains (h : names.contains (Faults.lastName path) = true)
    (operation : StateM Machine (Except StoreError α)) (m : Machine) :
    refusing names path operation m = (.error (Faults.refusal path), m) := by
  unfold refusing
  rw [if_pos h]
  rfl

/-- What is not refused goes as it would without faults. -/
theorem refusing_of_not_contains (h : ¬names.contains (Faults.lastName path) = true)
    (operation : StateM Machine (Except StoreError α)) :
    refusing names path operation = operation := by
  unfold refusing
  rw [if_neg h]

end refusing

section fields

variable (faults : Faults)

/-- Sizes are never refused. -/
@[simp] theorem faultyHost_size : (faultyHost faults).size = host.size := rfl

/-- Every file can be closed. -/
@[simp] theorem faultyHost_close : (faultyHost faults).close = host.close := rfl

/-- Every event is taken note of. -/
@[simp] theorem faultyHost_report : (faultyHost faults).report = host.report := rfl

end fields

end Machine

namespace Faults

/-- Directories are listed as they are, whatever else is refused. -/
structure Truthful (faults : Faults) : Prop where
  /-- No scan is refused. -/
  list : faults.list = false
  /-- No file is reported falsely. -/
  reports : faults.reports = []

/-- Where nothing is refused directories are listed as they are. -/
theorem truthful_none : Faults.none.Truthful := ⟨rfl, rfl⟩

/-- Whether the eviction of a file of this name is not refused: it may be locked and removed. -/
def allowsEviction (faults : Faults) (name : Bytes) : Bool :=
  !faults.openExclusive.contains name && !faults.remove.contains name

/-- Where nothing is refused every entry may be evicted. -/
theorem allowsEviction_none (name : Bytes) : Faults.none.allowsEviction name = true := rfl

/-- The file that is locked for eviction, or why it is not. -/
def granted (faults : Faults) (fs : FileSystem) (path : Path) : Except StoreError FileId :=
  if faults.openExclusive.contains (lastName path) then .error (refusal path)
  else fs.granted path .exclusive

/-- Where nothing is refused the files that can be locked are those of the machine. -/
theorem granted_none (fs : FileSystem) (path : Path) :
    Faults.none.granted fs path = fs.granted path .exclusive := rfl

/-- A name put behind a path is the one that an operation on the path is refused by. -/
theorem lastName_join (path : Path) {name : Bytes} (h : Path.IsName name) :
    lastName (Path.join path name) = name := by
  unfold lastName
  by_cases hpath : path = []
  · have hjoin : Path.join [] name = name := by
      unfold Path.join
      rw [Path.not_isAbsolute_of_isName h]
      rfl
    rw [hpath, hjoin, Path.components_name h]
    rfl
  · rw [Path.components_join hpath h]
    simp

end Faults

namespace Cache

variable {faults : Faults} (h : faults.Truthful) (path : Path)

include h

/-- Scans are what they are without faults. -/
theorem listed_truthful :
    listed (Machine.faultyHost faults) path = listed Machine.host path := by
  have hlist : (Machine.faultyHost faults).list = Machine.host.list := by
    rw [← Machine.faultyHost_none]
    unfold Machine.faultyHost
    simp only [h.list, h.reports]
    rfl
  unfold listed
  rw [hlist]
  rfl

/-- So are the sizes of directories. -/
theorem sizeOf_truthful :
    sizeOf (Machine.faultyHost faults) path = sizeOf Machine.host path := by
  unfold sizeOf
  rw [listed_truthful h]

/-- So are their entries. -/
theorem entriesOf_truthful :
    entriesOf (Machine.faultyHost faults) path = entriesOf Machine.host path := by
  unfold entriesOf
  rw [listed_truthful h]

/-- And so is the size of a cache. -/
theorem size_truthful (cache : Cache) :
    size (Machine.faultyHost faults) cache = size Machine.host cache := by
  unfold size
  simp only [sizeOf_truthful h]

end Cache

end BlobCache
