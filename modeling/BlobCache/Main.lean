import BlobCache.Cli.Tool

/-!
# The program

The tool on the files of the computer that it runs on. Nothing is decided here: what the cache asks
for (`Disk.host`) and what a command asks for besides (`Disk.desk`) is handed to the operating
system, and its answers are handed back.

A mapping is a copy of the file, taken when it is first asked for. That an entry is one regular
file with one name is checked before it is opened.
-/

namespace BlobCache.Disk

/-! ## Refusals -/

/-- The cause behind an exception. -/
def causeOf : IO.Error → Cause
  | .alreadyExists _ code _ | .otherError code _ | .resourceBusy code _ | .resourceVanished code _
  | .unsupportedOperation code _ | .hardwareFault code _ | .unsatisfiedConstraints code _
  | .illegalOperation code _ | .protocolError code _ | .timeExpired code _
  | .interrupted _ code _ | .noFileOrDirectory _ code _ | .invalidArgument _ code _
  | .permissionDenied _ code _ | .resourceExhausted _ code _ | .inappropriateType _ code _
  | .noSuchThing _ code _ => .system ⟨code.toNat⟩
  | .unexpectedEof => .custom "unexpected end of file"
  | .userError text => .custom text

/-- Runs an action and gives the cause if it is refused. -/
def attempt {α : Type} (action : IO α) : IO (Except Cause α) := do
  try
    return .ok (← action)
  catch error =>
    return .error (causeOf error)

/-- Runs an action on a file of the cache. -/
def attemptOn {α : Type} (path : Path) (action : IO α) : IO (Except StoreError α) := do
  return (← attempt action).mapError (StoreError.io path)

/-! ## Open files -/

/-- An open file of the cache. -/
structure OpenEntry where
  /-- The file. -/
  file : IO.FS.Handle
  /-- The path it was opened by. -/
  path : Path
  /-- Whether it was created for writing. -/
  writable : Bool
  /-- Its size, with what was written through it. -/
  size : IO.Ref Nat
  /-- Its content, once it has been mapped. -/
  content : IO.Ref (Option Bytes)

/-- The place of a file for the operating system. -/
def located (path : Path) := System.mkFilePath [Path.shown path]

/-- The bytes that a file gives or takes. -/
def packed (bytes : Bytes) : ByteArray := ⟨bytes.toArray⟩

/-- A time in nanoseconds since the epoch. -/
def nanoseconds (time : IO.FS.SystemTime) : Int := time.sec * 1000000000 + time.nsec.toNat

/-- Takes the lock of a file that has been opened, and its size under the lock. -/
def lockOpened (file : IO.FS.Handle) (path : Path) (writable exclusive : Bool) :
    IO (Except StoreError OpenEntry) := do
  match ← attempt (file.tryLock exclusive) with
  | .error cause => return .error (.locked path cause)
  | .ok false => return .error (.locked path (.system .wouldBlock))
  | .ok true =>
    attemptOn path do
      let found ← (located path).metadata
      return ⟨file, path, writable, ← IO.mkRef found.byteSize.toNat, ← IO.mkRef none⟩

/-- Opens a file that exists, under a lock. -/
def openEntry (path : Path) (exclusive : Bool) : IO (Except StoreError OpenEntry) := do
  match ← attemptOn path (located path).symlinkMetadata with
  | .error error => return .error error
  | .ok found =>
    match found.type with
    | .symlink => return .error (.io path (.system .linkLoop))
    | .file =>
      if 1 < found.numLinks then return .error (.notSingle path)
      else
        match ← attemptOn path (IO.FS.Handle.mk (located path) .read) with
        | .error error => return .error error
        | .ok file => lockOpened file path false exclusive
    | _ => return .error (.notSingle path)

/-- Creates a file for writing, which its owner and group may read, under an exclusive lock. -/
def createEntry (path : Path) : IO (Except StoreError OpenEntry) := do
  let opened ← attemptOn path do
    let file ← IO.FS.Handle.mk (located path) .writeNew
    IO.setAccessRights (located path) ⟨⟨true, false, false⟩, ⟨true, false, false⟩, {}⟩
    return file
  match opened with
  | .error error => return .error error
  | .ok file => lockOpened file path true true

/-- Maps a file, unless it is mapped already. -/
def mapEntry (entry : OpenEntry) : IO (Except StoreError Bytes) := do
  if entry.writable then return .error (.mappingWriter entry.path)
  else
    match ← entry.content.get with
    | some bytes => return .ok bytes
    | none =>
      attemptOn entry.path do
        let bytes := (← entry.file.readBinToEnd).data.toList
        entry.content.set (some bytes)
        return bytes

/-- Appends to a file. -/
def writeEntry (entry : OpenEntry) (data : Bytes) : IO (Except StoreError Unit) := do
  if data.isEmpty then return .error (.emptyWrite entry.path)
  else
    attemptOn entry.path do
      entry.file.write (packed data)
      entry.file.flush
      entry.size.modify (· + data.length)

/-- The entry that a name of a directory stands for; what cannot be inspected is none. -/
def entryOf? (item : IO.FS.DirEntry) : IO (Option Entry) := do
  match ← attempt item.path.symlinkMetadata with
  | .error _ => return none
  | .ok found =>
    match found.type with
    | .file => return some ⟨item.fileName, found.byteSize.toNat, nanoseconds found.accessed⟩
    | _ => return none

/-- Lists the regular files of a directory. -/
def listEntries (path : Path) : IO Listing := do
  match ← attemptOn path (located path).readDir with
  | .error error => return ⟨[], some error⟩
  | .ok items => return ⟨← items.toList.filterMapM entryOf?, none⟩

/-! ## Events -/

/-- The text of a field. -/
def fieldText : Field → String
  | .number n => toString n
  | .text s => s

/-- The line that shows an event. -/
def eventLine (event : Event) : String :=
  let fields := event.fields.map fun (name, value) => s!" {name}={fieldText value}"
  s!"{event.level.name} {event.message}{String.join fields}"

/-- Whether events of a level are shown: all of them to those who follow every step, and otherwise
warnings, unless nothing but errors is wanted. -/
def isShown (globals : Cli.Globals) : Level → Bool
  | .warn => globals.verbose || !globals.quiet
  | _ => globals.verbose

/-- Shows an event, if it is wanted. -/
def showEvent (globals : Cli.Globals) (event : Event) : IO Unit := do
  if isShown globals event.level then IO.eprintln (eventLine event)

/-! ## The computer as a host -/

/-- The files of this computer. -/
def host (globals : Cli.Globals) : Host IO OpenEntry where
  createDirectories path := attemptOn path (IO.FS.createDirAll (located path))
  openShared path := openEntry path false
  openExclusive path := openEntry path true
  create := createEntry
  remove path := attemptOn path (IO.FS.removeFile (located path))
  list := listEntries
  size entry := entry.size.get
  map := mapEntry
  mapped entry := entry.content.get
  write := writeEntry
  close entry := entry.file.unlock
  report := showEvent globals

/-- This computer as a place to run the tool. -/
def desk (globals : Cli.Globals) : Cli.Desk IO OpenEntry where
  host := host globals
  contentOf path := attempt do
    let file ← IO.FS.Handle.mk (located path) .read
    return (← file.readBinToEnd).data.toList
  truncateFile path := attempt do
    let _ ← IO.FS.Handle.mk (located path) .write
    return ()
  appendFile path data := attempt do
    let file ← IO.FS.Handle.mk (located path) .append
    file.write (packed data)

/-- The surroundings of this process. -/
def environment : IO Environment := do
  let names := [directoryVariable, budgetVariable, cacheHomeVariable, homeVariable]
  let bindings ← names.filterMapM fun name => do
    return (← IO.getEnv name).map fun value => (name, Utf8.encode value)
  let here ← attempt IO.currentDir
  return ⟨bindings, here.map fun path => Path.ofText path.toString⟩

/-- What a command line says for every command, as far as it says anything. -/
def globalsOf (words : List Bytes) : Cli.Globals :=
  match Cli.read words with
  | .ok (.run globals _) => globals
  | _ => ⟨false, false, none, none⟩

/-- What is printed about a command line that asks for nothing the tool knows. -/
def misuseText (error : Cli.UsageError) : String :=
  let reason := match error.format with
    | some refusal => refusal.message
    | none => "the arguments are not understood"
  s!"error: {reason}\n\nFor more information, try '--help'."

end BlobCache.Disk

open BlobCache in
/-- Runs the tool on the words of the command line. -/
def main (arguments : List String) : IO UInt32 := do
  let words := arguments.map Utf8.encode
  match ← Cli.run (Disk.desk (Disk.globalsOf words)) (← Disk.environment) words with
  | .misused error =>
    IO.eprintln (Disk.misuseText error)
    return 2
  | .done report =>
    let output ← IO.getStdout
    output.write (Disk.packed report.output)
    output.flush
    IO.eprint report.remarks
    return report.exit
