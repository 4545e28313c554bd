import BlobCache.Cache.Host
import BlobCache.FileSystem.Handles

/-!
# The local machine

A machine is a file system, the events reported so far, and a count of compiler runs. Its file
operations are those of a local file store.

* An entry is opened only if it is one regular file with one name, so that no link can lead an
  operation elsewhere. The lock is asked for after that, and the size is taken under the lock.
* A new entry can be read by its owner and group and written by nobody but its creator.
* Every entry can be read. A new one has the mode 0440, other files have 0644, and nothing here
  changes a mode. So the bit that lets the owner read is always set, and opening does not look at
  it.
* Files that are not regular, or whose names are not UTF-8, are not listed.
-/

namespace BlobCache

/-- A file system with the record of what was reported and compiled. -/
structure Machine where
  /-- The files. -/
  fs : FileSystem
  /-- The events reported, oldest first. -/
  log : List Event
  /-- How often a compiler ran. -/
  compilations : Nat

/-- The permission bits of a new entry. -/
def entryMode : Nat := 0o440

namespace FileSystem

/-! ## Opening entries -/

/-- Opens a file that exists, under a lock. -/
def openEntry (fs : FileSystem) (path : Path) (lock : Lock) :
    Except StoreError HandleId × FileSystem :=
  match fs.openNode path with
  | .error cause => (.error (.io path cause), fs)
  | .ok (.file id) =>
    if 1 < fs.linkCount (.file id) then (.error (.notSingle path), fs)
    else if fs.lockable id lock then
      let (handle, fs) := fs.addHandle ⟨id, path, false, (fs.contents id).length, none, lock, 0⟩
      (.ok handle, fs)
    else (.error (.locked path (.system .wouldBlock)), fs)
  | .ok _ => (.error (.notSingle path), fs)

/-- Creates a file for writing, under an exclusive lock. -/
def createEntry (fs : FileSystem) (path : Path) : Except StoreError HandleId × FileSystem :=
  match fs.create path entryMode with
  | .error cause => (.error (.io path cause), fs)
  | .ok (id, fs) =>
    let (handle, fs) := fs.addHandle ⟨id, path, true, 0, none, .exclusive, 0⟩
    (.ok handle, fs)

/-! ## Using open entries -/

/-- Changes what is known of an open file. -/
def modifyHandle (fs : FileSystem) (id : HandleId) (change : OpenFile → OpenFile) : FileSystem :=
  { fs with handles := fs.handles.modify id change }

/-- The handle is not open. -/
def notOpen : StoreError := .io [] (.system .badDescriptor)

/-- The bytes of the mapping of an open file. -/
def mappedEntry (fs : FileSystem) (id : HandleId) : Option Bytes := do
  let handle ← fs.handles.get? id
  let length ← handle.mapped
  return fs.mappedView handle.file length

/-- Maps an open file, unless it is mapped already. -/
def mapEntry (fs : FileSystem) (id : HandleId) : Except StoreError Bytes × FileSystem :=
  match fs.handles.get? id with
  | none => (.error notOpen, fs)
  | some handle =>
    if handle.writable then (.error (.mappingWriter handle.path), fs)
    else
      let length := handle.mapped.getD (fs.contents handle.file).length
      let mapped := fs.modifyHandle id fun h => { h with mapped := some length }
      (.ok (mapped.mappedView handle.file length), mapped)

/-- Writes through an open file, after what was written before. -/
def writeEntry (fs : FileSystem) (id : HandleId) (data : Bytes) :
    Except StoreError Unit × FileSystem :=
  match fs.handles.get? id with
  | none => (.error notOpen, fs)
  | some handle =>
    if data.isEmpty then (.error (.emptyWrite handle.path), fs)
    else if handle.writable then
      let written := fs.writeAt handle.file handle.size data
      (.ok (), written.modifyHandle id fun h =>
        { h with size := h.size + data.length, writes := h.writes + 1 })
    else (.error (.io handle.path (.system .badDescriptor)), fs)

/-! ## Names -/

/-- Removes a file. -/
def removeEntry (fs : FileSystem) (path : Path) : Except StoreError Unit × FileSystem :=
  match fs.unlink path with
  | .error cause => (.error (.io path cause), fs)
  | .ok fs => (.ok (), fs)

/-- Makes a directory and its missing parents. -/
def createEntryDirectory (fs : FileSystem) (path : Path) : Except StoreError Unit × FileSystem :=
  let (made, fs) := fs.makeDirectories path
  (made.mapError (.io path), fs)

/-- The entry that a name of a directory stands for. -/
def entryOf? (fs : FileSystem) (name : Bytes) (node : Node) : Option Entry :=
  match node with
  | .file id => do
    let text ← Utf8.decode? name
    return ⟨text, (fs.contents id).length, fs.accessTime id⟩
  | _ => none

/-- Lists the regular files of a directory. -/
def listEntries (fs : FileSystem) (path : Path) : Listing :=
  match fs.nodeAt path with
  | .error cause => ⟨[], some (.io path cause)⟩
  | .ok (location, .directory) =>
    ⟨(fs.children location).filterMap fun entry => fs.entryOf? entry.1 entry.2, none⟩
  | .ok _ => ⟨[], some (.io path (.system .notDirectory))⟩

end FileSystem

/-! ## The machine as a host -/

namespace Machine

/-- Runs an operation of the file system. -/
def onFiles {α : Type} (operation : FileSystem → α × FileSystem) : StateM Machine α := fun machine =>
  let (answer, fs) := operation machine.fs
  (answer, { machine with fs := fs })

/-- Asks the file system. -/
def askFiles {α : Type} (question : FileSystem → α) : StateM Machine α := fun machine =>
  (question machine.fs, machine)

/-- Takes note of an event. -/
def note (event : Event) : StateM Machine Unit := fun machine =>
  ((), { machine with log := machine.log ++ [event] })

/-- Counts a compiler run. -/
def countCompilation : StateM Machine Unit := fun machine =>
  ((), { machine with compilations := machine.compilations + 1 })

/-- The host whose operations fail only when the file system refuses them. -/
def host : Host (StateM Machine) HandleId where
  createDirectories path := onFiles (·.createEntryDirectory path)
  openShared path := onFiles (·.openEntry path .shared)
  openExclusive path := onFiles (·.openEntry path .exclusive)
  create path := onFiles (·.createEntry path)
  remove path := onFiles (·.removeEntry path)
  list path := askFiles (·.listEntries path)
  size id := askFiles fun fs => ((fs.handles.get? id).map (·.size)).getD 0
  map id := onFiles (·.mapEntry id)
  mapped id := askFiles (·.mappedEntry id)
  write id data := onFiles (·.writeEntry id data)
  close id := onFiles fun fs => ((), fs.close id)
  report := note

end Machine

end BlobCache
