import BlobCache.Text.Utf8

/-!
# Paths

A path is a byte string; slashes separate its components. What a path names is decided by the file
system that reads it (`FileSystem.Lookup`): here a path is only put together and taken apart.

* `Path.join` appends a relative path to a directory and lets an absolute one replace it.
* `Path.components` are the names between the slashes, with `.` and `..` among them.
* `Path.Plain` is the path without what never matters: doubled and trailing slashes, and every `.`
  after the first component.
-/

namespace BlobCache

/-- A path as a program hands it to the file system. -/
abbrev Path := Bytes

namespace Path

/-- The separator. -/
def slash : UInt8 := 0x2F

/-- The component that names the directory itself. -/
def dot : Bytes := [0x2E]

/-- The component that names the directory above. -/
def dotDot : Bytes := [0x2E, 0x2E]

/-- The path with this UTF-8 text. -/
def ofText (text : String) : Path := Utf8.encode text

/-- A path shown in a message. -/
def shown (path : Path) : String := Utf8.lossy path

/-- Whether the path starts at the top of the tree. -/
def isAbsolute (path : Path) : Bool := path.head? == some slash

/-- Whether the path ends in a separator, and so can only name a directory. -/
def endsInSlash (path : Path) : Bool := path.getLast? == some slash

/-- The path `rest` as seen from the directory `path`. -/
def join (path rest : Path) : Path :=
  if isAbsolute rest then rest
  else if path.isEmpty || endsInSlash path then path ++ rest
  else path ++ slash :: rest

/-- Cuts at the separators; `current` holds the bytes since the last one, last byte first. -/
def splitFrom (current : Bytes) : Bytes → List Bytes
  | [] => [current.reverse]
  | b :: rest =>
    if b = slash then current.reverse :: splitFrom [] rest
    else splitFrom (b :: current) rest

/-- The names between the separators. -/
def components (path : Path) : List Bytes := (splitFrom [] path).filter fun name => !name.isEmpty

/-! ## Plain paths -/

/-- A path without redundant parts. -/
structure Plain where
  /-- Whether it starts at the top of the tree. -/
  absolute : Bool
  /-- Its components, innermost first. -/
  names : List Bytes

/-- Drops doubled and trailing slashes and every `.` but a leading one of a relative path. -/
def plain (path : Path) : Plain :=
  let absolute := isAbsolute path
  let names := match components path with
    | [] => []
    | first :: rest =>
      (if absolute && first == dot then [] else [first]) ++ rest.filter fun name => name != dot
  ⟨absolute, names.reverse⟩

/-- The text of a plain path. -/
def Plain.toPath (p : Plain) : Path :=
  let body := (p.names.reverse.intersperse [slash]).flatten
  if p.absolute then slash :: body else body

end Path

end BlobCache
