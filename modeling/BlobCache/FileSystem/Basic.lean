import BlobCache.FileSystem.Location
import BlobCache.Table
import BlobCache.SystemError

/-!
# File systems

A file system keeps three things apart.

* **Names.** The tree binds each location to a directory, a symbolic link or a file. Several
  locations may be bound to one file, or to one link.
* **Files.** A file has bytes, permission bits and an access time, and an identity that no name
  owns: a file whose last name is gone is still there for whoever has it open.
* **Handles.** An open file remembers the path it was opened by, whether it may be written, and the
  lock it holds. Locks belong to handles, never to names, so a new file under an old name starts
  without any.

Identities of files, links and handles are drawn from one counter and never used twice.
-/

namespace BlobCache

/-! ## Names -/

/-- The identity of a file. -/
abbrev FileId := Nat

/-- The identity of a symbolic link. -/
abbrev LinkId := Nat

/-- The identity of an open file. -/
abbrev HandleId := Nat

/-- What stands at a location. -/
inductive Node where
  /-- A directory; its entries are the locations one name further in. -/
  | directory
  /-- A name of a symbolic link, and the path written in the link. -/
  | link (id : LinkId) (target : Path)
  /-- A name of a file. -/
  | file (id : FileId)
  deriving DecidableEq

/-! ## Files and handles -/

/-- A file, whatever its names. -/
structure FileData where
  /-- The content. -/
  bytes : Bytes
  /-- The permission bits. -/
  mode : Nat
  /-- The access time, in nanoseconds since the epoch. -/
  accessed : Int

/-- The kinds of advisory lock. -/
inductive Lock where
  /-- Held beside other shared locks. -/
  | shared
  /-- Held alone. -/
  | exclusive
  deriving DecidableEq

/-- Whether two locks may be held on one file at once. -/
def Lock.compatible : Lock → Lock → Bool
  | .shared, .shared => true
  | _, _ => false

/-- An open file with the lock it holds. -/
structure OpenFile where
  /-- The file. -/
  file : FileId
  /-- The path it was opened by. -/
  path : Path
  /-- Whether it was created for writing. -/
  writable : Bool
  /-- The size of the file when the lock was taken, and all that was written since. -/
  size : Nat
  /-- The length of the read-only mapping, once there is one. -/
  mapped : Option Nat
  /-- The lock. -/
  lock : Lock
  /-- How many writes have gone through. -/
  writes : Nat

/-! ## The whole -/

/-- A file system and its open files. -/
structure FileSystem where
  /-- What stands at each location below the top. -/
  tree : Table Location Node
  /-- The files, with those that have lost their last name. -/
  files : Table FileId FileData
  /-- The open files. -/
  handles : Table HandleId OpenFile
  /-- The next identity to give out. -/
  next : Nat
  /-- The working directory, where relative paths start. -/
  current : Location
  /-- The access time given to what is created or written. -/
  now : Int

namespace FileSystem

/-- The longest name of a single entry. -/
def nameLimit : Nat := 255

/-- The length from which on a path is too long as a whole. -/
def pathLimit : Nat := 4096

/-- The most symbolic links that one look-up follows. -/
def linkLimit : Nat := 40

/-- The size of the pieces in which a file is mapped. -/
def pageSize : Nat := 4096

/-- An empty working directory below the top and nothing else. -/
def initial (name : Bytes) : FileSystem where
  tree := Table.empty.set (Location.top.child name) .directory
  files := .empty
  handles := .empty
  next := 0
  current := Location.top.child name
  now := 0

/-- How many names a file or a symbolic link has. -/
def linkCount (fs : FileSystem) (node : Node) : Nat :=
  fs.tree.rows.countP fun row => row.2 = node

/-- The entries of a directory, in the order in which they were made. -/
def children (fs : FileSystem) (directory : Location) : List (Bytes × Node) :=
  fs.tree.rows.filterMap fun row => (row.1.nameIn? directory).map fun name => (name, row.2)

/-- The content of a file. -/
def contents (fs : FileSystem) (id : FileId) : Bytes := ((fs.files.get? id).map (·.bytes)).getD []

/-- Whether the permission bits of a file let its owner write. -/
def mayWrite (fs : FileSystem) (id : FileId) : Bool :=
  ((fs.files.get? id).map fun f => f.mode.testBit 7).getD false

/-- The access time of a file. -/
def accessTime (fs : FileSystem) (id : FileId) : Int :=
  ((fs.files.get? id).map (·.accessed)).getD 0

end FileSystem

end BlobCache
