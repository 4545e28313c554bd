import BlobCache.Cli.Tool
import BlobCache.Digest.Simple
import BlobCache.Graph.Load
import BlobCache.Machine.Faults

/-!
# Commands of a session

A session is a history of one machine on which several caches are open at once, blobs are held and
files are open, while others change files behind the caches' backs. This module names the steps of
such a history and what they answer; `Session.step` carries them out.
-/

namespace BlobCache.Session

/-! ## Commands -/

/-- How the key of a step is given. -/
inductive KeySource where
  /-- As text; the empty text is the empty key. -/
  | text (text : String)
  /-- By a request. -/
  | request (compiler : Option Compiler) (request : Request)

/-- How the configuration of a cache is given. -/
inductive ConfigSource where
  /-- Outright. -/
  | config (config : Config)
  /-- By an environment. -/
  | environment (env : Environment)
  /-- By the variables of a process in the working directory of the machine. -/
  | process (bindings : List (String × Bytes))

/-- How a file of the store is opened. -/
inductive OpenMode where
  /-- For reading under a shared lock. -/
  | shared
  /-- For reading under an exclusive lock. -/
  | exclusive
  /-- As a new file, under an exclusive lock. -/
  | create

/-- What others do to the files. -/
inductive Meddling where
  /-- Makes a directory and its missing parents. -/
  | makeDirectories (path : Path)
  /-- Removes a file. -/
  | unlink (path : Path)
  /-- Removes a directory with its content. -/
  | removeTree (path : Path)
  /-- Puts a new file in place of an old one, with an access time if one is given. -/
  | write (path : Path) (bytes : Bytes) (time : Option Int)
  /-- Replaces a file by one in which a byte is combined with a mask. -/
  | damage (path : Path) (index : Nat) (mask : UInt8)
  /-- Makes a symbolic link. -/
  | makeLink (path target : Path)
  /-- Gives a file a second name. -/
  | addName (path target : Path)
  /-- Sets an access time. -/
  | touch (path : Path) (time : Int)

/-- What is asked of an open cache. -/
inductive CacheCommand where
  /-- Whether and where it keeps entries. -/
  | state
  /-- The key of a request. -/
  | key (compiler : Option Compiler) (request : Request)
  /-- Looks up a blob, and holds it under a name if one is given. -/
  | get (key : KeySource) (hold : Option String)
  /-- Stores a blob. -/
  | set (key : KeySource) (blob : Bytes)
  /-- The bytes that all entries take. -/
  | size
  /-- The entries. -/
  | entries
  /-- Checks the entries. -/
  | verify
  /-- Evicts entries until the budget is met. -/
  | trim
  /-- Evicts every entry. -/
  | clear
  /-- Loads a graph with a compiler that answers `compiled`, and holds the blob under a name if one
  is given. -/
  | load (compiler : Option Compiler) (request : Request) (compiled : Except String Bytes)
      (hold : Option String)

/-- What is asked of an open file of the store. -/
inductive FileCommand where
  /-- Its size. -/
  | size
  /-- Maps it. -/
  | map
  /-- The mapping made before. -/
  | mapped
  /-- Appends to it. -/
  | write (data : Bytes)

/-- A step of a session. -/
inductive Command where
  /-- Someone else changes the files. -/
  | meddle (change : Meddling)
  /-- Reads a file. -/
  | contentOf (path : Path)
  /-- The attributes of a file. -/
  | attributes (path : Path)
  /-- Opens a cache under a name, in place of an older one. -/
  | openCache (name : String) (source : ConfigSource) (digest : Digest) (version : Option UInt32)
      (faults : Faults)
  /-- Closes a cache. -/
  | dropCache (name : String)
  /-- Asks something of a cache. -/
  | onCache (name : String) (command : CacheCommand)
  /-- The bytes of a held blob. -/
  | readBlob (name : String)
  /-- Gives up a held blob. -/
  | releaseBlob (name : String)
  /-- Opens a file of the store under a name, in place of an older one. -/
  | openFile (name : String) (path : Path) (mode : OpenMode)
  /-- Asks something of an open file. -/
  | onFile (name : String) (command : FileCommand)
  /-- Closes a file. -/
  | closeFile (name : String)
  /-- Makes a directory as the store does. -/
  | storeDirectories (path : Path)
  /-- Removes a file as the store does. -/
  | storeRemove (path : Path)
  /-- Lists a directory as the store does. -/
  | storeList (path : Path)
  /-- Runs the tool. -/
  | tool (words : List Bytes) (bindings : List (String × Bytes))

/-! ## Answers -/

/-- What a step answers. -/
inductive Answer where
  /-- It was done. -/
  | done
  /-- The file system refused it. -/
  | refused
  /-- Nothing has the name that was given. -/
  | nothing
  /-- The text given for a key is none. -/
  | invalidKey
  /-- Yes or no. -/
  | truth (value : Bool)
  /-- A number. -/
  | number (n : Nat)
  /-- Bytes. -/
  | bytes (bytes : Bytes)
  /-- The attributes of a file. -/
  | attributes (attributes : FileSystem.Attributes)
  /-- The state of a cache and the length of its digests. -/
  | state (state : CacheState) (digestSize : Nat)
  /-- A key. -/
  | key (key : Key)
  /-- Nothing was found. -/
  | miss
  /-- A blob, by its bytes, its summary and whether it is mapped. -/
  | blob (bytes : Bytes) (summary : String) (mapped : Bool)
  /-- What became of a blob. -/
  | outcome (outcome : SetOutcome)
  /-- Entries, in order. -/
  | entries (entries : List Entry)
  /-- What a check found. -/
  | report (report : Cache.VerifyReport)
  /-- A loaded graph and how often the compiler ran. -/
  | loaded (status : LoadStatus) (bytes : Bytes) (mapped : Bool) (runs : Nat)
  /-- A graph could not be loaded. -/
  | loadFailed (error : LoadError) (runs : Nat)
  /-- An open file, by its size and path. -/
  | opened (size : Nat) (path : Path)
  /-- The store failed. -/
  | storeFailed (error : StoreError)
  /-- The tool ended. -/
  | ending (ending : Cli.Ending)

end BlobCache.Session
