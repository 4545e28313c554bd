import BlobCache.Machine.Basic

/-!
# Hosts that fail

A host that refuses some of its operations on purpose, to show what the cache makes of trouble. A
refused operation is not begun: it fails with one and the same cause and leaves the machine as it
was. A refused write may still have put the first of its bytes into the file.
-/

namespace BlobCache

/-- A false report of a file by a listing. -/
structure FalseReport where
  /-- The size that is reported. -/
  size : Nat
  /-- The access time that is reported. -/
  accessed : Int

/-- Which operations are refused. -/
structure Faults where
  /-- Whether making directories is refused. -/
  createDirectories : Bool
  /-- Whether listing a directory is refused. -/
  list : Bool
  /-- The names of the files that cannot be opened under a shared lock. -/
  openShared : List Bytes
  /-- The names of the files that cannot be opened or created under an exclusive lock. -/
  openExclusive : List Bytes
  /-- The names of the files that cannot be removed. -/
  remove : List Bytes
  /-- The names of the files that cannot be mapped. -/
  map : List Bytes
  /-- Says of each write through a handle, counted from zero, whether it is refused, and if so how
  many of its bytes reach the file all the same. -/
  write : Nat → Option Nat
  /-- Files that a listing reports falsely, by name. -/
  reports : List (String × FalseReport)

namespace Faults

/-- No operation is refused. -/
def none : Faults := ⟨false, false, [], [], [], [], fun _ => Option.none, []⟩

/-- Refuses every write through a handle after the first `n`. -/
def writesAfter (n : Nat) : Nat → Option Nat := fun i => if i < n then Option.none else some 0

/-- The cause of every refusal. -/
def cause : Cause := .custom "injected fault"

/-- The refusal of an operation on a path. -/
def refusal (path : Path) : StoreError := .io path cause

/-- The last component of a path. -/
def lastName (path : Path) : Bytes := (Path.components path).getLast?.getD []

/-- A refused write, of which the first bytes may reach the file. -/
def partialWrite (kept : Nat) (id : HandleId) (data : Bytes) (fs : FileSystem) :
    Except StoreError Unit × FileSystem :=
  match fs.handles.get? id with
  | Option.none => (.error FileSystem.notOpen, fs)
  | some handle =>
    if kept = 0 || !handle.writable then (.error (refusal handle.path), fs)
    else (.error (refusal handle.path), fs.writeAt handle.file handle.size (data.take kept))

/-- A listing with false reports in it. -/
def falsify (reports : List (String × FalseReport)) (entries : List Entry) : List Entry :=
  entries.map fun entry =>
    match reports.lookup entry.name with
    | Option.none => entry
    | some report => ⟨entry.name, report.size, report.accessed⟩

end Faults

namespace Machine

/-- The path that a file was opened by. -/
def pathOf (id : HandleId) (fs : FileSystem) : Path :=
  ((fs.handles.get? id).map (·.path)).getD []

/-- Refuses an operation on a file with one of these names. -/
def refusing {α : Type} (names : List Bytes) (path : Path)
    (operation : StateM Machine (Except StoreError α)) : StateM Machine (Except StoreError α) :=
  if names.contains (Faults.lastName path) then return .error (Faults.refusal path)
  else operation

/-- The host that refuses what the faults say. -/
def faultyHost (faults : Faults) : Host (StateM Machine) HandleId :=
  { host with
    createDirectories := fun path =>
      if faults.createDirectories then return .error (Faults.refusal path)
      else host.createDirectories path
    openShared := fun path => refusing faults.openShared path (host.openShared path)
    openExclusive := fun path => refusing faults.openExclusive path (host.openExclusive path)
    create := fun path => refusing faults.openExclusive path (host.create path)
    remove := fun path => refusing faults.remove path (host.remove path)
    list := fun path => do
      if faults.list then return ⟨[], some (Faults.refusal path)⟩
      else
        let listing ← host.list path
        return { listing with entries := Faults.falsify faults.reports listing.entries }
    map := fun id => do
      let path ← askFiles (pathOf id)
      refusing faults.map path (host.map id)
    write := fun id data => do
      let count ← askFiles fun fs => ((fs.handles.get? id).map (·.writes)).getD 0
      match faults.write count with
      | none => host.write id data
      | some kept => onFiles (Faults.partialWrite kept id data) }

end Machine

end BlobCache
