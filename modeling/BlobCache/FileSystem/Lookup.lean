import BlobCache.FileSystem.Basic

/-!
# What a path names

A path is read component by component from the top or from the working directory. `.` stays, `..`
goes up and stays at the top, and a symbolic link puts its own components in front of the rest; at
most `linkLimit` links are followed in one look-up. Anything but the last component must be a
directory. A slash at the end is read as one more component that stays like `.`, so it asks for a
directory too; only where a file may have to be created does it end the look-up at once.

* `resolve` follows a link at the end of the path.
* `resolveForCreation` does so too, on the way to a file that is created if it is missing.
* `resolveLast` stops in front of the last component and leaves it to the caller.

`nodeAt` and `ownNodeAt` say what stands where a path leads: the first follows a link at the end of
the path and the second does not.
-/

namespace BlobCache.FileSystem

/-! ## Reading components -/

/-- Where a path leads. -/
inductive Spot where
  /-- Something stands there. -/
  | occupied (location : Location) (node : Node)
  /-- Nothing does, but the directory that would hold it is there. -/
  | vacant (parent : Location) (name : Bytes)
  deriving DecidableEq

/-- What a look-up is for. -/
inductive Purpose where
  /-- To find what is there. -/
  | finding
  /-- To open a file, and to create it if it is missing. -/
  | creating
  deriving DecidableEq

/-- The component that stands for a slash at the end of a path. No name is empty. -/
def endSlash : Bytes := []

/-- The components of a path as a look-up reads them. -/
def lookupNames (path : Path) : List Bytes :=
  Path.components path ++ if Path.endsInSlash path then [endSlash] else []

/-- Where reading a path starts, seen from a directory. -/
def startOf (directory : Location) (path : Path) : Location :=
  if Path.isAbsolute path then .top else directory

/-- What stands under a name in a directory. -/
def nodeIn (fs : FileSystem) (directory : Location) (name : Bytes) :
    Except Cause (Option Node) :=
  if nameLimit < name.length then .error (.system .nameTooLong)
  else .ok (fs.tree.get? (directory.child name))

/-- Reads components from a directory and hands what a symbolic link leads to over to `follow`. -/
def walkNames (fs : FileSystem) (purpose : Purpose)
    (follow : Location → List Bytes → Except Cause Spot) :
    Location → List Bytes → Except Cause Spot
  | here, [] => .ok (.occupied here .directory)
  | here, name :: rest =>
    if name = Path.dot || name = endSlash then walkNames fs purpose follow here rest
    else if name = Path.dotDot then walkNames fs purpose follow here.parent rest
    else if purpose = .creating && rest = [endSlash] then .error (.system .isDirectory)
    else match fs.nodeIn here name with
      | .error cause => .error cause
      | .ok none => if rest.isEmpty then .ok (.vacant here name) else .error (.system .noEntry)
      | .ok (some .directory) => walkNames fs purpose follow (here.child name) rest
      | .ok (some (.link _ target)) => follow (startOf here target) (lookupNames target ++ rest)
      | .ok (some (.file id)) =>
        if rest.isEmpty then .ok (.occupied (here.child name) (.file id))
        else .error (.system .notDirectory)

/-- Reads components and follows at most `links` symbolic links. -/
def walk (fs : FileSystem) (purpose : Purpose) (links : Nat) :
    Location → List Bytes → Except Cause Spot :=
  match links with
  | 0 => walkNames fs purpose fun _ _ => .error (.system .linkLoop)
  | links + 1 => walkNames fs purpose (walk fs purpose links)

/-! ## Whole paths -/

/-- Refuses a path that names nothing in any file system. -/
def checkPath (path : Path) : Except Cause Unit :=
  if path.contains 0 then .error .zeroByte
  else if path.isEmpty then .error (.system .noEntry)
  else if pathLimit ≤ path.length then .error (.system .nameTooLong)
  else .ok ()

/-- Reads components from where a path starts. -/
def walkFrom (fs : FileSystem) (purpose : Purpose) (path : Path) (names : List Bytes) :
    Except Cause Spot :=
  fs.walk purpose linkLimit (startOf fs.current path) names

/-- Where a path leads when a link at its end is followed. -/
def resolve (fs : FileSystem) (path : Path) : Except Cause Spot := do
  checkPath path
  fs.walkFrom .finding path (lookupNames path)

/-- Where a path leads to a file that is created if it is missing. A slash after the last name,
also in a link that is followed, asks for a directory and is refused before the name is read. -/
def resolveForCreation (fs : FileSystem) (path : Path) : Except Cause Spot := do
  checkPath path
  fs.walkFrom .creating path (lookupNames path)

/-- The last component of a path in its directory. -/
inductive Last where
  /-- A name, and whether a slash follows it. -/
  | named (parent : Location) (name : Bytes) (slash : Bool)
  /-- The path ends in `.` or `..` or is the top itself, so it can only name a directory that is
  there already. -/
  | dots (location : Location)

/-- Where a path leads when the last component is left alone. -/
def resolveLast (fs : FileSystem) (path : Path) : Except Cause Last := do
  checkPath path
  match (Path.components path).reverse with
  | [] => return .dots .top
  | last :: before =>
    match ← fs.walkFrom .finding path (before.reverse ++ [Path.dot]) with
    | .vacant .. => throw (.system .noEntry)
    | .occupied parent _ =>
      if last = Path.dot then return .dots parent
      else if last = Path.dotDot then return .dots parent.parent
      else return .named parent last (Path.endsInSlash path)

/-- What a path names when a link at its end is followed. -/
def nodeAt (fs : FileSystem) (path : Path) : Except Cause (Location × Node) := do
  match ← fs.resolve path with
  | .occupied location node => return (location, node)
  | .vacant .. => throw (.system .noEntry)

/-- What a path names when a link at its end is left alone. A slash after the name of a link asks
for the directory behind it, and so the link is followed. -/
def ownNodeAt (fs : FileSystem) (path : Path) : Except Cause (Location × Node) := do
  match ← fs.resolveLast path with
  | .named parent name false =>
    match ← fs.nodeIn parent name with
    | some node => return (parent.child name, node)
    | none => throw (.system .noEntry)
  | _ => fs.nodeAt path

end BlobCache.FileSystem
