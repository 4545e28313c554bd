import BlobCache.FileSystem.Lookup

/-!
# Making and removing names

Each operation either gives the new file system or says why it refuses, and a refusal changes
nothing. The two exceptions answer with the file system they leave behind in any case, because they
are made of several steps: `makeDirectories` keeps the parents it made before a later step failed,
and `removeTree` empties a directory before it fails to remove its name.

Removing a name never touches the file behind it.
-/

namespace BlobCache.FileSystem

/-! ## Single names -/

/-- Binds a location. -/
def bind (fs : FileSystem) (location : Location) (node : Node) : FileSystem :=
  { fs with tree := fs.tree.set location node }

/-- Removes a location. -/
def unbind (fs : FileSystem) (location : Location) : FileSystem :=
  { fs with tree := fs.tree.erase location }

/-- The directory and name for a new entry, which must not exist yet. Where a slash follows the name
of what is not to be a directory, `slashed` is the error. -/
def vacancy (fs : FileSystem) (path : Path) (slashed : Option SystemError) :
    Except Cause Location := do
  match ← fs.resolveLast path with
  | .dots _ => throw (.system .alreadyExists)
  | .named parent name slash =>
    if (← fs.nodeIn parent name).isSome then throw (.system .alreadyExists)
    match slash, slashed with
    | true, some error => throw (.system error)
    | _, _ => return parent.child name

/-- Makes a symbolic link. -/
def makeLink (fs : FileSystem) (path target : Path) : Except Cause FileSystem := do
  checkPath target
  let location ← fs.vacancy path (some .noEntry)
  return { fs.bind location (.link fs.next target) with next := fs.next + 1 }

/-- Gives what `target` names a second name. A link at the end of `target` is not followed: it is
the link itself that has two names then. -/
def addName (fs : FileSystem) (path target : Path) : Except Cause FileSystem := do
  match ← fs.resolveLast target with
  | .dots _ => throw (.system .notPermitted)
  | .named parent name slash =>
    match ← fs.nodeIn parent name with
    | none => throw (.system .noEntry)
    | some .directory => throw (.system .notPermitted)
    | some node =>
      if slash then throw (.system .notDirectory)
      let location ← fs.vacancy path (some .noEntry)
      return fs.bind location node

/-- Removes the name of a file or of a symbolic link. -/
def unlink (fs : FileSystem) (path : Path) : Except Cause FileSystem := do
  match ← fs.resolveLast path with
  | .dots _ => throw (.system .isDirectory)
  | .named parent name slash =>
    match ← fs.nodeIn parent name with
    | none => throw (.system .noEntry)
    | some .directory => throw (.system .isDirectory)
    | some _ =>
      if slash then throw (.system .notDirectory)
      return fs.unbind (parent.child name)

/-! ## Directories with their parents -/

/-- The directory that a path names, or why the path is refused if it names none. -/
def directoryAt (fs : FileSystem) (path : Path) (refusal : Cause) : Except Cause Location :=
  match fs.nodeAt path with
  | .ok (location, .directory) => .ok location
  | _ => .error refusal

/-- The directory under a name, which is made if the name is free. `path` leads there too: it is
asked where a symbolic link under that name leads. -/
def enterDirectory (fs : FileSystem) (here : Location) (name : Bytes) (path : Path) :
    Except Cause Location × FileSystem :=
  if name = Path.dot then (.ok here, fs)
  else if name = Path.dotDot then (.ok here.parent, fs)
  else
    let there := here.child name
    match fs.nodeIn here name with
    | .error cause => (.error cause, fs)
    | .ok none => (.ok there, fs.bind there .directory)
    | .ok (some .directory) => (.ok there, fs)
    | .ok (some _) => (fs.directoryAt path (.system .alreadyExists), fs)

/-- Makes the directory with these plain components, and on a missing parent the parents first, and
says where it is. A directory that is there already is as good as a new one. -/
def makePlainDirectory (absolute : Bool) (names : List Bytes) (fs : FileSystem) :
    Except Cause Location × FileSystem :=
  match names with
  | [] => (.ok (if absolute then .top else fs.current), fs)
  | name :: outer =>
    let path := Path.Plain.toPath ⟨absolute, name :: outer⟩
    match fs.vacancy path none with
    | .ok location => (.ok location, fs.bind location .directory)
    | .error (.system .noEntry) =>
      match makePlainDirectory absolute outer fs with
      | (.error cause, fs) => (.error cause, fs)
      | (.ok here, fs) => fs.enterDirectory here name path
    | .error cause => (fs.directoryAt path cause, fs)

/-- Makes a directory and its missing parents. A path without names is that of the directory it
starts from, which is always there, so it succeeds without being looked up, however long it is. Any
other path is used as it was given: under a name that is free, `name/` can be made and `name/.`
cannot. -/
def makeDirectories (fs : FileSystem) (path : Path) : Except Cause Unit × FileSystem :=
  let plain := Path.plain path
  match plain.names with
  | [] => (.ok (), fs)
  | _ :: outer =>
    let settle (fs : FileSystem) : Except Cause Unit × FileSystem :=
      match fs.vacancy path none with
      | .ok location => (.ok (), fs.bind location .directory)
      | .error cause => ((fs.directoryAt path cause).map fun _ => (), fs)
    match fs.vacancy path none with
    | .error (.system .noEntry) =>
      match makePlainDirectory plain.absolute outer fs with
      | (.error cause, fs) => (.error cause, fs)
      | (.ok _, fs) => settle fs
    | _ => settle fs

/-! ## Whole trees -/

/-- Removes everything below a directory. -/
def clearBelow (fs : FileSystem) (directory : Location) : FileSystem :=
  { fs with tree := fs.tree.filter fun row => !directory.isBelow row.1 }

/-- Removes an empty directory by its name; neither `.` nor `..` is one, and a symbolic link is not
followed even where a slash comes after it. -/
def removeDirectory (fs : FileSystem) (path : Path) : Except Cause FileSystem := do
  match ← fs.resolveLast path with
  | .dots _ => throw (.system .invalidArgument)
  | .named parent name _ =>
    match ← fs.nodeIn parent name with
    | none => throw (.system .noEntry)
    | some .directory =>
      unless (fs.children (parent.child name)).isEmpty do throw (.system .notEmpty)
      return fs.unbind (parent.child name)
    | some _ => throw (.system .notDirectory)

/-- Removes a directory with all that is below it, or a symbolic link. The directory is found by its
path twice, to be emptied and to be removed. Between the two the path may lose its way, when it goes
through something in the directory; then the directory stays, and that counts as success. -/
def removeTree (fs : FileSystem) (path : Path) : Except Cause Unit × FileSystem :=
  match fs.ownNodeAt path with
  | .error cause => (.error cause, fs)
  | .ok (_, .file _) => (.error (.system .notDirectory), fs)
  | .ok (location, .link ..) => (.ok (), fs.unbind location)
  | .ok (location, .directory) =>
    let emptied := fs.clearBelow location
    match emptied.removeDirectory path with
    | .ok removed => (.ok (), removed)
    | .error (.system .noEntry) => (.ok (), emptied)
    | .error cause => (.error cause, emptied)

end BlobCache.FileSystem
