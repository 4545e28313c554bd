import BlobCache.FileSystem.Files

/-!
# Open files and their locks

A lock is asked for without waiting: `lockable` says whether it would be granted. A shared lock is
granted unless some handle holds the file exclusively, an exclusive one only if no handle has the
file locked at all. Two handles of one program conflict like those of two.

A mapping shows the file as it is now, not as it was when it was made: `mappedView` reads the
content anew. Only its length is fixed. Where the file has become shorter, the rest of its last page
reads as zeros and nothing lies beyond.
-/

namespace BlobCache.FileSystem

/-! ## Locks -/

/-- The locks in force on a file. -/
def locksOn (fs : FileSystem) (id : FileId) : List Lock :=
  fs.handles.rows.filterMap fun row => if row.2.file = id then some row.2.lock else none

/-- Whether a lock on a file would be granted. -/
def lockable (fs : FileSystem) (id : FileId) (lock : Lock) : Bool :=
  (fs.locksOn id).all (Lock.compatible lock)

/-! ## Handles -/

/-- Adds an open file. -/
def addHandle (fs : FileSystem) (handle : OpenFile) : HandleId × FileSystem :=
  (fs.next, { fs with handles := fs.handles.set fs.next handle, next := fs.next + 1 })

/-- Closes a handle, and with it gives back its lock. -/
def close (fs : FileSystem) (id : HandleId) : FileSystem :=
  { fs with handles := fs.handles.erase id }

/-- What a path names when it is opened for reading; a symbolic link at its end may not be
followed. -/
def openNode (fs : FileSystem) (path : Path) : Except Cause Node := do
  match ← fs.ownNodeAt path with
  | (_, .link ..) => throw (.system .linkLoop)
  | (_, node) => return node

/-! ## Mappings -/

/-- The content of a file up to the end of its last page. -/
def pages (content : Bytes) : Bytes :=
  content ++ List.replicate ((pageSize - content.length % pageSize) % pageSize) 0

/-- What a mapping of some length shows. -/
def mappedView (fs : FileSystem) (id : FileId) (length : Nat) : Bytes :=
  let content := fs.contents id
  if length ≤ content.length then content.take length else (pages content).take length

end BlobCache.FileSystem
