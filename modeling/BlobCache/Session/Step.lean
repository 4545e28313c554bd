import BlobCache.Session.Command

/-!
# Sessions

The state of a session and its steps. Access times follow one rule: whatever is created or written
in a step gets the time of the step, and so does the entry that a `get` or a `load` finds. Reading
otherwise leaves them alone.

A blob that is looked up and not held is released at the end of its step. Whatever is put under a
name releases what was there before.
-/

namespace BlobCache

/-! ## State -/

namespace Session

/-- An open cache and the faults of the host it works on. -/
structure OpenCache where
  /-- The cache. -/
  cache : Cache
  /-- The faults. -/
  faults : Faults

end Session

/-- A machine with the caches, blobs and files that are open on it. -/
structure Session where
  /-- The machine. -/
  machine : Machine
  /-- The open caches. -/
  caches : Table String Session.OpenCache
  /-- The held blobs. -/
  held : Table String (Blob HandleId)
  /-- The open files of the store. -/
  files : Table String HandleId
  /-- How many steps have been made. -/
  steps : Nat

namespace Session

/-- A session in an empty working directory of this name. -/
def start (directory : Bytes) : Session where
  machine := ⟨.initial directory, [], 0⟩
  caches := .empty
  held := .empty
  files := .empty
  steps := 0

/-- The time of a step. -/
def timeOf (step : Nat) : Int := (1000000 + step) * 1000000000

/-- Runs an operation on the machine. -/
def onMachine {α : Type} (session : Session) (operation : StateM Machine α) : α × Session :=
  let (answer, machine) := operation session.machine
  (answer, { session with machine := machine })

/-- The path of the working directory. -/
def workingDirectory (fs : FileSystem) : Path := Path.Plain.toPath ⟨true, fs.current.names⟩

/-! ## Holding and releasing -/

/-- Gives up the blob held under a name. -/
def release (session : Session) (name : String) : Session :=
  match session.held.get? name with
  | none => session
  | some blob =>
    let (_, session) := session.onMachine (blob.release Machine.host)
    { session with held := session.held.erase name }

/-- Holds a blob under a name, or releases it if there is none. -/
def keep (session : Session) (blob : Blob HandleId) : Option String → Session
  | none => (session.onMachine (blob.release Machine.host)).2
  | some name =>
    let session := session.release name
    { session with held := session.held.set name blob }

/-- Closes the file open under a name. -/
def closeFile (session : Session) (name : String) : Session :=
  match session.files.get? name with
  | none => session
  | some handle =>
    let (_, session) := session.onMachine (Machine.host.close handle)
    { session with files := session.files.erase name }

/-! ## Changes from outside -/

/-- What a change leaves behind: a refused one leaves everything as it was. -/
def settle (fs : FileSystem) : Except Cause FileSystem → Except Cause Unit × FileSystem
  | .ok changed => (.ok (), changed)
  | .error cause => (.error cause, fs)

/-- Carries out a change of the files. -/
def Meddling.apply (fs : FileSystem) : Meddling → Except Cause Unit × FileSystem
  | .makeDirectories path => fs.makeDirectories path
  | .removeTree path => fs.removeTree path
  | .unlink path => settle fs (fs.unlink path)
  | .write path bytes time => fs.replace path bytes time
  | .damage path index mask => fs.damage path index mask
  | .makeLink path target => settle fs (fs.makeLink path target)
  | .addName path target => settle fs (fs.addName path target)
  | .touch path time => settle fs (fs.touch path time)

/-! ## Steps on a cache -/

/-- The key that a step means, unless its text is none. -/
def KeySource.key? (cache : Cache) : KeySource → Option Key
  | .text written => if written.isEmpty then some .empty else Key.parse? written
  | .request compiler wanted => some (cache.keyOf compiler wanted)

/-- Gives the entry of a key the time of the step. -/
def markUsed (cache : Cache) (key : Key) : StateM Machine Unit :=
  Machine.onFiles fun fs =>
    match cache.state.directory? with
    | none => ((), fs)
    | some directory => ((), (fs.touch (Cache.entryPath directory key) fs.now).toOption.getD fs)

/-- Looks up a blob; the entry that is found is used. -/
def lookUp (host : Host (StateM Machine) HandleId) (cache : Cache) (key : Key) :
    StateM Machine (Option (Blob HandleId)) := do
  match ← cache.get host key with
  | none => return none
  | some blob =>
    markUsed cache key
    return some blob

/-- Loads a graph; the entry that is found is used. -/
def loadGraph (host : Host (StateM Machine) HandleId) (cache : Cache) (compiler : Option Compiler)
    (request : Request) (compiled : Except String Bytes) :
    StateM Machine (Except LoadError (Loaded HandleId)) := do
  let compile : StateM Machine (Except String Bytes) := do
    Machine.countCompilation
    return compiled
  match ← cache.load host compiler compile request with
  | .error error => return .error error
  | .ok loaded =>
    if loaded.status = .hit then markUsed cache (cache.keyOf compiler request)
    return .ok loaded

/-- Asks something of a cache. -/
def onCache (session : Session) (on : OpenCache) : CacheCommand → Answer × Session :=
  let host := Machine.faultyHost on.faults
  let cache := on.cache
  fun
  | .state => (.state cache.state cache.digest.size, session)
  | .key compiler request => (.key (cache.keyOf compiler request), session)
  | .get source hold =>
    match source.key? cache with
    | none => (.invalidKey, session)
    | some key =>
      match session.onMachine (lookUp host cache key) with
      | (none, session) => (.miss, session)
      | (some blob, session) =>
        let (bytes, session) := session.onMachine (blob.read host)
        (.blob bytes blob.summary blob.isMapped, session.keep blob hold)
  | .set source blob =>
    match source.key? cache with
    | none => (.invalidKey, session)
    | some key =>
      let (outcome, session) := session.onMachine (cache.set host key blob)
      (.outcome outcome, session)
  | .size =>
    let (size, session) := session.onMachine (cache.size host)
    (.number size, session)
  | .entries =>
    let (entries, session) := session.onMachine (cache.entries host)
    (.entries entries, session)
  | .verify =>
    let (report, session) := session.onMachine (cache.verify host)
    (.report report, session)
  | .trim =>
    let (freed, session) := session.onMachine (cache.trim host)
    (.number freed, session)
  | .clear =>
    let (freed, session) := session.onMachine (cache.clear host)
    (.number freed, session)
  | .load compiler request compiled hold =>
    match session.onMachine (loadGraph host cache compiler request compiled) with
    | (.error error, session) => (.loadFailed error session.machine.compilations, session)
    | (.ok loaded, session) =>
      let (bytes, session) := session.onMachine (loaded.blob.read host)
      (.loaded loaded.status bytes loaded.blob.isMapped session.machine.compilations,
        session.keep loaded.blob hold)

/-- Opens a cache. -/
def openCache (source : ConfigSource) (digest : Digest) (version : Option UInt32)
    (faults : Faults) : StateM Machine OpenCache := do
  let host := Machine.faultyHost faults
  let cache ← match source with
    | .config config => Cache.ofConfig host digest config
    | .environment env => Cache.ofEnvironment host digest env
    | .process bindings => do
      let here ← Machine.askFiles workingDirectory
      Cache.ofEnvironment host digest ⟨bindings, .ok here⟩
  return ⟨{ cache with version := version.getD cache.version }, faults⟩

/-! ## Steps on a file of the store -/

/-- Opens a file. -/
def openFile (path : Path) (mode : OpenMode) : StateM Machine (Except StoreError HandleId) :=
  match mode with
  | .shared => Machine.host.openShared path
  | .exclusive => Machine.host.openExclusive path
  | .create => Machine.host.create path

/-- What the store answers where it has nothing to say but whether it failed. -/
def answerOf : Except StoreError Unit → Answer
  | .ok () => .done
  | .error error => .storeFailed error

/-- Asks something of an open file. -/
def onFile (handle : HandleId) : FileCommand → StateM Machine Answer
  | .size => do return .number (← Machine.host.size handle)
  | .map => do
    match ← Machine.host.map handle with
    | .ok bytes => return .bytes bytes
    | .error error => return .storeFailed error
  | .mapped => do
    match ← Machine.host.mapped handle with
    | some bytes => return .bytes bytes
    | none => return .nothing
  | .write data => do return answerOf (← Machine.host.write handle data)

/-! ## All steps -/

/-- Runs the tool. It is a process of its own, so what it reports is not noted here. -/
def runTool (words : List Bytes) (bindings : List (String × Bytes)) : StateM Machine Cli.Ending :=
  fun machine =>
    let env : Environment := ⟨bindings, .ok (workingDirectory machine.fs)⟩
    let (ending, after) := Cli.run Machine.desk env words machine
    (ending, { after with log := machine.log })

/-- Carries out a command at the time that the machine has. -/
def carryOut (session : Session) : Command → Answer × Session
  | .meddle change =>
    match session.onMachine (Machine.onFiles fun fs => change.apply fs) with
    | (.ok (), session) => (.done, session)
    | (.error _, session) => (.refused, session)
  | .contentOf path =>
    match session.machine.fs.read path with
    | .ok bytes => (.bytes bytes, session)
    | .error _ => (.refused, session)
  | .attributes path =>
    match session.machine.fs.attributes path with
    | .ok attributes => (.attributes attributes, session)
    | .error _ => (.refused, session)
  | .openCache name source digest version faults =>
    let (on, session) := session.onMachine (openCache source digest version faults)
    (.state on.cache.state digest.size, { session with caches := session.caches.set name on })
  | .dropCache name =>
    (.truth (session.caches.contains name),
      { session with caches := session.caches.erase name })
  | .onCache name command =>
    match session.caches.get? name with
    | none => (.nothing, session)
    | some on => session.onCache on command
  | .readBlob name =>
    match session.held.get? name with
    | none => (.nothing, session)
    | some blob =>
      let (bytes, session) := session.onMachine (blob.read Machine.host)
      (.blob bytes blob.summary blob.isMapped, session)
  | .releaseBlob name =>
    match session.held.get? name with
    | none => (.nothing, session)
    | some blob =>
      let (bytes, session) := session.onMachine (blob.read Machine.host)
      (.bytes bytes, session.release name)
  | .openFile name path mode =>
    match session.onMachine (openFile path mode) with
    | (.error error, session) => (.storeFailed error, session)
    | (.ok handle, session) =>
      let (size, session) := session.onMachine (Machine.host.size handle)
      let session := session.closeFile name
      (.opened size path, { session with files := session.files.set name handle })
  | .onFile name command =>
    match session.files.get? name with
    | none => (.nothing, session)
    | some handle => session.onMachine (onFile handle command)
  | .closeFile name => (.truth (session.files.contains name), session.closeFile name)
  | .storeDirectories path =>
    let (made, session) := session.onMachine (Machine.host.createDirectories path)
    (answerOf made, session)
  | .storeRemove path =>
    let (removed, session) := session.onMachine (Machine.host.remove path)
    (answerOf removed, session)
  | .storeList path =>
    let (listing, session) := session.onMachine (Machine.host.list path)
    match listing.error with
    | some error => (.storeFailed error, session)
    | none => (.entries listing.entries, session)
  | .tool words bindings =>
    let (ending, session) := session.onMachine (runTool words bindings)
    (.ending ending, session)

/-- Turns the clock to the time of the step and forgets what was reported before it. -/
def begin (session : Session) : Session :=
  let fs := { session.machine.fs with now := timeOf session.steps }
  { session with machine := ⟨fs, [], 0⟩, steps := session.steps + 1 }

/-- Makes a step. The events of the step are in the machine afterwards. -/
def step (session : Session) (command : Command) : Answer × Session :=
  session.begin.carryOut command

/-- What is below the working directory. -/
def listing (session : Session) : List FileSystem.Listed :=
  session.machine.fs.list session.machine.fs.current

end Session

end BlobCache
