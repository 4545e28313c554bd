import BlobCache.Cli.Reading
import BlobCache.Config.Json
import BlobCache.Graph.Load

/-!
# Running commands

Each command answers with an exit code and what it prints. Results go to the output and remarks for
people to the error output, where `--quiet` suppresses them. Without further options a command works
on the cache that the driver would use.

The exit code is 1 if a command fails, if a lookup misses, if a blob was not stored or if a check
found damage, and 2 if the command line asks for nothing the tool knows.
-/

namespace BlobCache.Cli

/-! ## What commands work with -/

/-- A host on which files outside the cache can be read and written. -/
structure Desk (m : Type → Type) (φ : Type) where
  /-- The host of the cache. -/
  host : Host m φ
  /-- The content of a file. -/
  contentOf : Path → m (Except Cause Bytes)
  /-- Makes a file empty, and creates it if there is none. -/
  truncateFile : Path → m (Except Cause Unit)
  /-- Appends to a file. -/
  appendFile : Path → Bytes → m (Except Cause Unit)

/-- How a command ended and what it printed. -/
structure Report where
  /-- The exit code. -/
  exit : UInt32
  /-- What went to the output. -/
  output : Bytes
  /-- What went to the error output. -/
  remarks : String

namespace Report

/-- A command that ended well and printed a text. -/
def ofText (text : String) : Report := ⟨0, Utf8.encode text, ""⟩

/-- A command that ended well and printed a line. -/
def ofLine (line : String) : Report := ofText (line ++ "\n")

/-- A command that failed. -/
def failure (text : String) : Report := ⟨1, [], s!"error: {text}\n"⟩

/-- The report with remarks, unless there are to be none. -/
def withRemarks (report : Report) (quiet : Bool) (lines : List String) : Report :=
  if quiet then report
  else { report with remarks := report.remarks ++ String.join (lines.map (· ++ "\n")) }

/-- The report with an exit code. -/
def withExit (report : Report) (exit : UInt32) : Report := { report with exit := exit }

end Report

variable {m : Type → Type} [Monad m] {φ : Type}

/-! ## The cache of a command line -/

/-- The configuration that a command works with. A directory that is given makes the environment
irrelevant, and with it the budget there. -/
def configOf (globals : Globals) (env : Environment) : Except ConfigError Config := do
  let config ← match globals.directory with
    | some path => pure ⟨some path, defaultBudget⟩
    | none => Config.ofEnvironment env
  return { config with budget := globals.budget.getD config.budget }

/-- What is reported when the configuration is found. -/
def configEvents (globals : Globals) (env : Environment) : List Event :=
  match globals.directory with
  | some _ => []
  | none => Config.eventsOfEnvironment env

/-- Goes on with the configuration, or fails because there is none. -/
def withConfig (desk : Desk m φ) (globals : Globals) (env : Environment)
    (use : Config → m Report) : m Report := do
  Cache.reportAll desk.host (configEvents globals env)
  match configOf globals env with
  | .error error => return .failure error.message
  | .ok config => use config

/-- Goes on with the cache, or fails because there is none. -/
def withCache (desk : Desk m φ) (globals : Globals) (env : Environment)
    (use : Cache → m Report) : m Report :=
  withConfig desk globals env fun config => do
    let cache ← Cache.ofConfig desk.host Sha1.digest config
    if cache.state.isEnabled then use cache else return .failure "cache is disabled"

/-- Goes on with a key, or fails because the text is none. -/
def withKey (text : String) (use : Key → m Report) : m Report :=
  match Key.parse? text with
  | some key => use key
  | none => return .failure s!"invalid cache key '{text}'"

/-! ## Inspecting -/

/-- The text of a value over several lines. -/
def prettyReport (value : Json) : Report := .ofLine value.pretty

/-- A configuration with what its cache holds. -/
structure Summary where
  /-- The directory of the cache, if it is enabled. -/
  directory : Option Path
  /-- The configuration. -/
  config : Config
  /-- The bytes that all entries take. -/
  size : Nat
  /-- How many entries there are. -/
  entries : Nat

/-- The value of a summary; a directory that is not UTF-8 has none. -/
def Summary.toJson? (summary : Summary) : Option Json := do
  let directory ← match summary.directory with
    | none => some none
    | some path => (Utf8.decode? path).map some
  return .ofMembers
    [("enabled", .bool summary.directory.isSome), ("dir", .ofText? directory),
      ("config", ← summary.config.toJson?), ("size_bytes", .ofNat summary.size),
      ("entries", .ofNat summary.entries)]

/-- The report of a summary. -/
def Summary.report (summary : Summary) (json : Bool) : Report :=
  if json then
    match summary.toJson? with
    | some value => prettyReport value
    | none => .failure "path contains invalid UTF-8 characters"
  else match summary.directory with
    | none => .ofLine "cache is disabled"
    | some path => .ofText <| String.join
        [s!"cache directory: {path.shown}\n",
          s!"size budget:     {summary.config.budget.toNat} bytes\n",
          s!"current size:    {summary.size} bytes\n",
          s!"entries:         {summary.entries}\n"]

/-- Shows the configuration and how full the cache is. A disabled cache is no failure here. -/
def info (desk : Desk m φ) (globals : Globals) (env : Environment) (json : Bool) : m Report :=
  withConfig desk globals env fun config => do
    let cache ← Cache.ofConfig desk.host Sha1.digest config
    let entries ← cache.entries desk.host
    let summary : Summary :=
      ⟨cache.state.directory?, config, Entry.totalSize entries, entries.length⟩
    return summary.report json

/-- A text with blanks before it up to some width. -/
def padLeft (width : Nat) (text : String) : String :=
  String.ofList (List.replicate (width - text.length) ' ') ++ text

/-- The line of an entry. -/
def entryLine (entry : Entry) : String :=
  let size := padLeft 12 (toString entry.size)
  let accessed := padLeft 10 (toString (unixSeconds entry.accessed))
  s!"{size}  {accessed}  {entry.name}\n"

/-- The value of an entry. -/
def entryJson (entry : Entry) : Json :=
  .ofMembers
    [("key", .ofText entry.name), ("size", .ofNat entry.size),
      ("accessed_unix", .ofNat (unixSeconds entry.accessed))]

/-- Lists the entries. -/
def list (desk : Desk m φ) (globals : Globals) (env : Environment) (json : Bool) : m Report :=
  withCache desk globals env fun cache => do
    let entries ← cache.entries desk.host
    if json then return prettyReport (.array (entries.map entryJson))
    else
      return (Report.ofText (String.join (entries.map entryLine))).withRemarks globals.quiet
        [s!"{entries.length} entries"]

/-! ## Maintaining -/

/-- The value of a check. -/
def verifyJson (found : Cache.VerifyReport) : Json :=
  .ofMembers
    [("valid", .ofNat found.valid), ("corrupt", .array (found.corrupt.map .ofText)),
      ("skipped", .ofNat found.skipped)]

/-- Checks the entries. -/
def verify (desk : Desk m φ) (globals : Globals) (env : Environment) (json : Bool) : m Report :=
  withCache desk globals env fun cache => do
    let found ← cache.verify desk.host
    let report :=
      if json then prettyReport (verifyJson found)
      else (Report.ofText "").withRemarks globals.quiet
        (found.corrupt.map (fun name => s!"removed corrupt entry {name}") ++
          [s!"{found.valid} valid, {found.corrupt.length} corrupt, {found.skipped} skipped"])
    return report.withExit (if found.corrupt.isEmpty then 0 else 1)

/-- Evicts entries until the cache fits its budget. -/
def trim (desk : Desk m φ) (globals : Globals) (env : Environment) : m Report :=
  withCache desk globals env fun cache => do
    let freed ← cache.trim desk.host
    if globals.quiet then return .ofText ""
    else
      let size ← cache.size desk.host
      return (Report.ofText "").withRemarks false
        [s!"freed {freed} bytes, {size} of {cache.state.budget.toNat} bytes in use"]

/-- Evicts every entry that is not in use. -/
def clear (desk : Desk m φ) (globals : Globals) (env : Environment) : m Report :=
  withCache desk globals env fun cache => do
    let freed ← cache.clear desk.host
    let kept := (← cache.entries desk.host).length
    return (Report.ofText "").withRemarks globals.quiet
      (s!"freed {freed} bytes" ::
        (if kept = 0 then [] else [s!"{kept} entries in use were kept"]))

/-! ## Keys and blobs -/

namespace KeyOptions

/-- The flags that are asked for. -/
def flags (options : KeyOptions) : Flags :=
  let caching := if options.disableCaching then Flags.disableCaching else .none
  let profiling := if options.profiling then Flags.profiling else .none
  caching.union profiling

/-- The compiler that is named. -/
def compiler (options : KeyOptions) : Option Compiler :=
  options.compilerId.map fun id => ⟨id, options.compilerVersion, options.opsets⟩

/-- The request whose key is asked for. -/
def request (options : KeyOptions) (input : Bytes) : Request :=
  ⟨options.format, input, options.buildFlags, options.flags⟩

/-- The key of an input. -/
def keyOf (options : KeyOptions) (input : Bytes) : Key :=
  Key.derive Sha1.digest Key.driverVersion options.compiler (options.request input)

end KeyOptions

/-- The value of a compiler. -/
def compilerJson (compiler : Compiler) : Json :=
  .ofMembers
    [("id", .ofText compiler.id), ("version", .ofNat compiler.version.toNat),
      ("supported_opsets", .ofNat compiler.opsets.toNat)]

/-- The value of a key with everything behind it but the input. -/
def keyJson (options : KeyOptions) (key : Key) : Json :=
  .ofMembers
    [("key", .ofText key.text), ("driver_version", .ofNat Key.driverVersion.toNat),
      ("format", .ofText options.format.name), ("flags", .ofNat options.flags.bits.toNat),
      ("build_flags", .ofText? options.buildFlags),
      ("compiler", (options.compiler.map compilerJson).getD .null)]

/-- Computes the key of a graph. No cache is needed for that. -/
def key (desk : Desk m φ) (options : KeyOptions) (json : Bool) : m Report := do
  match ← desk.contentOf options.input with
  | .error cause => return .failure cause.message
  | .ok input =>
    let key := options.keyOf input
    return if json then prettyReport (keyJson options key) else .ofLine key.text

/-- Writes a blob to a file. The file is emptied first, so a blob that is mapped from it is gone by
the time it is to be written. -/
def writeBlob (desk : Desk m φ) (blob : Blob φ) (path : Path) : m (Except Cause Unit) := do
  match ← desk.truncateFile path with
  | .error cause => return .error cause
  | .ok () =>
    let bytes ← blob.read desk.host
    if bytes.length < blob.length then return .error (.system .badAddress)
    else desk.appendFile path bytes

/-- Writes a blob to a file, or to the output if none is named. -/
def deliver (desk : Desk m φ) (blob : Blob φ) : Option Path → m Report
  | none => do
    return ⟨0, ← blob.read desk.host, ""⟩
  | some path => do
    match ← writeBlob desk blob path with
    | .ok () => return .ofText ""
    | .error cause => return .failure cause.message

/-- Copies a blob out of the cache. -/
def get (desk : Desk m φ) (globals : Globals) (env : Environment) (text : String)
    (output : Option Path) : m Report :=
  withCache desk globals env fun cache => withKey text fun key => do
    match ← cache.get desk.host key with
    | none => return ((Report.ofText "").withRemarks globals.quiet [s!"miss: {key.text}"]).withExit 1
    | some blob =>
      let report ← deliver desk blob output
      blob.release desk.host
      return report

/-- The value of an outcome. -/
def outcomeJson : SetOutcome → Json
  | .stored size => .ofMembers [("stored", .ofMembers [("bytes", .ofNat size)])]
  | .skipped reason => .ofMembers [("skipped", .ofText reason.code)]
  | .failed => .ofText "failed"

/-- The remark on an outcome. -/
def outcomeRemark (key : Key) : SetOutcome → String
  | .stored size => s!"stored {key.text} ({size} bytes on disk)"
  | .skipped reason => s!"not stored: {reason.title}"
  | .failed => s!"failed to store {key.text}"

/-- The exit code of an outcome. -/
def outcomeExit : SetOutcome → UInt32
  | .stored _ => 0
  | _ => 1

/-- Stores the content of a file. -/
def put (desk : Desk m φ) (globals : Globals) (env : Environment) (text : String) (blob : Path)
    (json : Bool) : m Report :=
  withCache desk globals env fun cache => withKey text fun key => do
    match ← desk.contentOf blob with
    | .error cause => return .failure cause.message
    | .ok content =>
      let outcome ← cache.set desk.host key content
      let report :=
        if json then Report.ofLine (outcomeJson outcome).compact
        else (Report.ofText "").withRemarks globals.quiet [outcomeRemark key outcome]
      return report.withExit (outcomeExit outcome)

/-! ## Any command -/

/-- Runs a command. -/
def runCommand (desk : Desk m φ) (globals : Globals) (env : Environment) : Command → m Report
  | .info json => info desk globals env json
  | .list json => list desk globals env json
  | .verify json => verify desk globals env json
  | .trim => trim desk globals env
  | .clear => clear desk globals env
  | .key options json => key desk options json
  | .get text output => get desk globals env text output
  | .put text blob json => put desk globals env text blob json

end BlobCache.Cli
