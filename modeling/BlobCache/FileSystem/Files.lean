import BlobCache.FileSystem.Names

/-!
# Reading and writing files by path

What is created or written gets the current access time; reading never changes a time. `create`
insists on a new name, while `truncate` takes a file that is there, follows links to it, and writes
in place: it is the one operation that changes the content of a file that others may have open, and
it needs the permission to write.
-/

namespace BlobCache.FileSystem

/-- The permission bits of a file made without special wishes. -/
def plainMode : Nat := 0o644

/-- The permission bits of a directory. -/
def directoryMode : Nat := 0o755

/-- The permission bits of a symbolic link, which are never consulted. -/
def linkMode : Nat := 0o777

/-! ## Contents -/

/-- Changes a file. -/
def modifyFile (fs : FileSystem) (id : FileId) (change : FileData → FileData) : FileSystem :=
  { fs with files := fs.files.modify id change }

/-- Puts `data` at an offset, after zeros where the content ends before it. -/
def splice (content : Bytes) (offset : Nat) (data : Bytes) : Bytes :=
  (content ++ List.replicate (offset - content.length) 0).take offset ++ data ++
    content.drop (offset + data.length)

/-- Writes into a file. -/
def writeAt (fs : FileSystem) (id : FileId) (offset : Nat) (data : Bytes) : FileSystem :=
  fs.modifyFile id fun f => { f with bytes := splice f.bytes offset data, accessed := fs.now }

/-- Binds a location to a new file. -/
def addFile (fs : FileSystem) (location : Location) (mode : Nat) (bytes : Bytes) :
    FileId × FileSystem :=
  (fs.next,
    { fs.bind location (.file fs.next) with
      files := fs.files.set fs.next ⟨bytes, mode, fs.now⟩
      next := fs.next + 1 })

/-- Creates an empty file under a name that must be new; a symbolic link under that name stands in
the way, wherever it leads. -/
def create (fs : FileSystem) (path : Path) (mode : Nat) : Except Cause (FileId × FileSystem) := do
  match ← fs.resolveLast path with
  | .dots _ => throw (.system .alreadyExists)
  | .named parent name slash =>
    if slash then throw (.system .isDirectory)
    if (← fs.nodeIn parent name).isSome then throw (.system .alreadyExists)
    return fs.addFile (parent.child name) mode []

/-- Makes a file empty, and creates it if there is none. -/
def truncate (fs : FileSystem) (path : Path) : Except Cause (FileId × FileSystem) := do
  match ← fs.resolveForCreation path with
  | .occupied _ (.file id) =>
    unless fs.mayWrite id do throw (.system .permissionDenied)
    return (id, fs.modifyFile id fun f => { f with bytes := [], accessed := fs.now })
  | .occupied .. => throw (.system .isDirectory)
  | .vacant parent name => return fs.addFile (parent.child name) plainMode []

/-- The file that a path names. -/
def fileAt (fs : FileSystem) (path : Path) : Except Cause FileId := do
  match ← fs.nodeAt path with
  | (_, .file id) => return id
  | _ => throw (.system .isDirectory)

/-- The content of the file that a path names. -/
def read (fs : FileSystem) (path : Path) : Except Cause Bytes := do
  return fs.contents (← fs.fileAt path)

/-- Appends to the file that a path names. -/
def append (fs : FileSystem) (path : Path) (data : Bytes) : Except Cause FileSystem := do
  let id ← fs.fileAt path
  return fs.writeAt id (fs.contents id).length data

/-! ## Replacing and dating -/

/-- Sets an access time. -/
def setAccessTime (fs : FileSystem) (id : FileId) (time : Int) : FileSystem :=
  fs.modifyFile id fun f => { f with accessed := time }

/-- Puts a new file under a path, in place of an old one or of a symbolic link. What was there is
removed first, and stays removed if the new file cannot be made. -/
def replace (fs : FileSystem) (path : Path) (bytes : Bytes) (time : Option Int) :
    Except Cause Unit × FileSystem :=
  let cleared := (fs.unlink path).toOption.getD fs
  match cleared.truncate path with
  | .error cause => (.error cause, cleared)
  | .ok (id, opened) =>
    (.ok (), (opened.writeAt id 0 bytes).setAccessTime id (time.getD fs.now))

/-- Puts a new file under the path of an old one: the same bytes but for one, which is combined with
`mask`, and the same access time. -/
def damage (fs : FileSystem) (path : Path) (index : Nat) (mask : UInt8) :
    Except Cause Unit × FileSystem :=
  match fs.fileAt path with
  | .error cause => (.error cause, fs)
  | .ok id =>
    let bytes := fs.contents id
    if index < bytes.length then
      fs.replace path (bytes.modify index (· ^^^ mask)) (some (fs.accessTime id))
    else (.error (.system .invalidArgument), fs)

/-- Sets the access time of what a path names; a directory has none to set. -/
def touch (fs : FileSystem) (path : Path) (time : Int) : Except Cause FileSystem := do
  match ← fs.nodeAt path with
  | (_, .file id) => return fs.setAccessTime id time
  | _ => return fs

/-- Permission bits and number of names. -/
structure Attributes where
  /-- The permission bits. -/
  mode : Nat
  /-- The number of names; a directory counts itself, its `.` and the `..` of its directories. -/
  links : Nat

/-- The attributes of what a path names; a symbolic link has its own. -/
def attributes (fs : FileSystem) (path : Path) : Except Cause Attributes := do
  match ← fs.ownNodeAt path with
  | (_, .file id) => return ⟨((fs.files.get? id).map (·.mode)).getD 0, fs.linkCount (.file id)⟩
  | (_, .link id target) => return ⟨linkMode, fs.linkCount (.link id target)⟩
  | (location, .directory) =>
    return ⟨directoryMode,
      2 + (fs.children location).countP fun entry => entry.2 = .directory⟩

/-! ## Listing -/

/-- A path of the tree as a listing shows it. -/
inductive Listed where
  /-- A directory. -/
  | directory (path : Path)
  /-- A symbolic link. -/
  | link (path : Path)
  /-- A file with its size and access time. -/
  | file (path : Path) (size : Nat) (accessed : Int)

/-- The path of a listed entry. -/
def Listed.path : Listed → Path
  | .directory path | .link path | .file path _ _ => path

/-- Everything below a directory with paths relative to it, in the order of the paths' bytes. -/
def list (fs : FileSystem) (directory : Location) : List Listed :=
  let entries := fs.tree.rows.filterMap fun (location, node) =>
    if directory.isBelow location then
      let path := Path.Plain.toPath ⟨false, directory.namesFrom location⟩
      some <| match node with
        | .directory => .directory path
        | .link .. => .link path
        | .file id => .file path (fs.contents id).length (fs.accessTime id)
    else none
  entries.mergeSort fun a b => a.path ≤ b.path

end BlobCache.FileSystem
