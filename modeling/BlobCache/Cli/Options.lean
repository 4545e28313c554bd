import BlobCache.Config.Basic
import BlobCache.Graph.Request

/-!
# The options of the tool

What a command line can ask for (`Invocation`), and the words in which it does: the arguments that
each command knows (`Grammar`) and the values that they take (`Argument.check`).
-/

namespace BlobCache.Cli

/-! ## Requests -/

/-- What holds for every command. -/
structure Globals where
  /-- Print nothing but results and errors. -/
  quiet : Bool
  /-- Follow every step. -/
  verbose : Bool
  /-- The cache directory, in place of the one that the environment asks for. -/
  directory : Option Path
  /-- The budget, in place of the one that would hold otherwise. -/
  budget : Option UInt64
  deriving DecidableEq

/-- The inputs of a key. -/
structure KeyOptions where
  /-- The file with the graph. -/
  input : Path
  /-- The encoding of the graph. -/
  format : Format
  /-- Options for the compiler. -/
  buildFlags : Option String
  /-- Whether the flag to leave the cache alone is set. -/
  disableCaching : Bool
  /-- Whether the flag to compile for profiling is set. -/
  profiling : Bool
  /-- The name of the compiler; without one there is no compiler. -/
  compilerId : Option String
  /-- The version of the compiler. -/
  compilerVersion : UInt32
  /-- The operation sets of the compiler. -/
  opsets : UInt64
  deriving DecidableEq

/-- A command and what it works on; `json` asks for a report for programs. -/
inductive Command where
  /-- Shows the configuration and how full the cache is. -/
  | info (json : Bool)
  /-- Lists the entries. -/
  | list (json : Bool)
  /-- Checks the entries and removes the damaged ones. -/
  | verify (json : Bool)
  /-- Evicts entries until the cache fits its budget. -/
  | trim
  /-- Evicts every entry that is not in use. -/
  | clear
  /-- Computes the key of a graph. -/
  | key (options : KeyOptions) (json : Bool)
  /-- Copies a blob out of the cache, to a file or to the output. -/
  | get (key : String) (output : Option Path)
  /-- Stores the content of a file. -/
  | put (key : String) (blob : Path) (json : Bool)
  deriving DecidableEq

/-- What a command line asks for. -/
inductive Invocation where
  /-- The version of the tool. -/
  | version
  /-- How the tool is used. -/
  | help
  /-- A command. -/
  | run (globals : Globals) (command : Command)

/-- A command line that asks for nothing the tool knows; if an encoding of a graph was refused,
why. -/
structure UsageError where
  /-- The refusal of an encoding. -/
  format : Option FormatError

/-- A mistake in the words, not in an encoding. -/
def UsageError.plain : UsageError := ⟨none⟩

/-! ## Arguments -/

/-- The arguments of all commands, named and positional ones. -/
inductive Argument where
  /-- Print nothing but results and errors: `--quiet`. -/
  | quiet
  /-- Follow every step: `--verbose`. -/
  | verbose
  /-- The cache directory: `--dir`. -/
  | directory
  /-- The budget: `--max-size`. -/
  | budget
  /-- How the tool is used: `--help`. -/
  | help
  /-- The version of the tool: `--version`. -/
  | version
  /-- A report for programs: `--json`. -/
  | json
  /-- The encoding of the graph: `--format`. -/
  | format
  /-- Options for the compiler: `--build-flags`. -/
  | buildFlags
  /-- The flag to leave the cache alone: `--disable-caching`. -/
  | disableCaching
  /-- The flag to compile for profiling: `--profiling`. -/
  | profiling
  /-- The name of the compiler: `--compiler-id`. -/
  | compilerId
  /-- The version of the compiler: `--compiler-version`. -/
  | compilerVersion
  /-- The operation sets of the compiler: `--opsets`. -/
  | opsets
  /-- The file to write a blob to: `--output`. -/
  | output
  /-- The file with the graph. -/
  | inputFile
  /-- The key of an entry. -/
  | entryKey
  /-- The file with the blob. -/
  | blobFile
  deriving DecidableEq

/-- The value of an argument. -/
inductive Value where
  /-- It was given. -/
  | present
  /-- A path. -/
  | path (path : Path)
  /-- A text. -/
  | text (text : String)
  /-- A number of 32 bits. -/
  | word32 (n : UInt32)
  /-- A number of 64 bits. -/
  | word64 (n : UInt64)
  /-- An encoding of graphs. -/
  | format (format : Format)

namespace Argument

/-- The name after two dashes. -/
def longName? : Argument → Option String
  | .quiet => some "quiet"
  | .verbose => some "verbose"
  | .directory => some "dir"
  | .budget => some "max-size"
  | .help => some "help"
  | .version => some "version"
  | .json => some "json"
  | .format => some "format"
  | .buildFlags => some "build-flags"
  | .disableCaching => some "disable-caching"
  | .profiling => some "profiling"
  | .compilerId => some "compiler-id"
  | .compilerVersion => some "compiler-version"
  | .opsets => some "opsets"
  | .output => some "output"
  | .inputFile | .entryKey | .blobFile => none

/-- The letter after one dash. -/
def shortName? : Argument → Option Char
  | .quiet => some 'q'
  | .verbose => some 'v'
  | .help => some 'h'
  | .version => some 'V'
  | .format => some 'f'
  | .output => some 'o'
  | _ => none

/-- Whether a value belongs to the argument. -/
def takesValue : Argument → Bool
  | .quiet | .verbose | .help | .version | .json | .disableCaching | .profiling => false
  | _ => true

/-- Whether the value may start with a dash though it stands on its own. -/
def allowsDash (argument : Argument) : Bool := argument == .buildFlags

/-- A version number: a numeral of 32 bits, where zero may have a minus sign. -/
def versionNumber? (text : String) : Option UInt32 :=
  match text.toList with
  | '-' :: digits =>
    match Numeral.digits? 10 digits with
    | some 0 => some 0
    | _ => none
  | _ => Numeral.word32? text

/-- The value that is written as `bytes`. A path must not be empty, and everything else must be
UTF-8. -/
def check (argument : Argument) (bytes : Bytes) : Except UsageError Value :=
  let orPlain {α : Type} (value : Option α) : Except UsageError α :=
    value.elim (.error .plain) .ok
  match argument with
  | .directory | .output | .inputFile | .blobFile =>
    if bytes.isEmpty then .error .plain else .ok (.path bytes)
  | .budget | .opsets => do
    let text ← orPlain (Utf8.decode? bytes)
    return .word64 (← orPlain (Numeral.word64? text))
  | .compilerVersion => do
    let text ← orPlain (Utf8.decode? bytes)
    return .word32 (← orPlain (versionNumber? text))
  | .buildFlags | .compilerId | .entryKey => do
    return .text (← orPlain (Utf8.decode? bytes))
  | .format => do
    let text ← orPlain (Utf8.decode? bytes)
    match Format.ofText text with
    | .ok known => return .format known
    | .error error => throw ⟨some error⟩
  | .quiet | .verbose | .help | .version | .json | .disableCaching | .profiling => .ok .present

end Argument

/-! ## Grammars -/

/-- The arguments that may be given at one place of a command line. -/
structure Grammar where
  /-- The arguments with a name, in any order. -/
  named : List Argument
  /-- The arguments without one, in this order; all of them are needed. -/
  positional : List Argument

/-- The commands by name. -/
inductive CommandName where
  /-- Show the configuration. -/
  | info
  /-- List the entries. -/
  | list
  /-- Check the entries. -/
  | verify
  /-- Make the cache fit its budget. -/
  | trim
  /-- Empty the cache. -/
  | clear
  /-- Compute a key. -/
  | key
  /-- Copy a blob out of the cache. -/
  | get
  /-- Store a blob. -/
  | put
  deriving DecidableEq

/-- The arguments that may be given anywhere. -/
def everywhere : List Argument := [.quiet, .verbose, .directory, .budget, .help]

/-- What may be given before a command. -/
def topGrammar : Grammar := ⟨everywhere ++ [.version], []⟩

namespace CommandName

/-- All commands. -/
def all : List CommandName := [.info, .list, .verify, .trim, .clear, .key, .get, .put]

/-- The word for a command. -/
def word : CommandName → String
  | .info => "info"
  | .list => "list"
  | .verify => "verify"
  | .trim => "trim"
  | .clear => "clear"
  | .key => "key"
  | .get => "get"
  | .put => "put"

/-- The command that a word names. -/
def ofWord? (word : Bytes) : Option CommandName :=
  all.find? fun name => Utf8.encode name.word == word

/-- What may be given after a command. -/
def grammar : CommandName → Grammar
  | .info | .list | .verify => ⟨everywhere ++ [.json], []⟩
  | .trim | .clear => ⟨everywhere, []⟩
  | .key =>
    ⟨everywhere ++ [.format, .buildFlags, .disableCaching, .profiling, .compilerId,
      .compilerVersion, .opsets, .json], [.inputFile]⟩
  | .get => ⟨everywhere ++ [.output], [.entryKey]⟩
  | .put => ⟨everywhere ++ [.json], [.entryKey, .blobFile]⟩

end CommandName

end BlobCache.Cli
