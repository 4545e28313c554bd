import BlobCache.Cli.Run
import BlobCache.Machine.Basic

/-!
# The tool

A command line is read and run. `Machine.desk` runs it on the local machine.
-/

namespace BlobCache.Cli

/-- The name of the tool and its version. -/
def versionLine : String := "npu-cache 0.1.0"

/-- How the tool is used. -/
def helpText : String := String.join
  ["NPU compiled-blob cache tool\n\n",
    "Usage: npu-cache [OPTIONS] <COMMAND>\n\n",
    "Commands:\n",
    "  info    Show the resolved cache configuration and usage\n",
    "  list    List cache entries, least recently used first\n",
    "  verify  Check every entry's checksum and remove corrupt ones\n",
    "  trim    Evict least recently used entries until the cache fits its budget\n",
    "  clear   Remove every entry not in use\n",
    "  key     Compute the cache key for a graph file\n",
    "  get     Copy a cached blob out of the cache\n",
    "  put     Store a blob under a key\n",
    "  help    Print this message or the help of the given subcommand(s)\n\n",
    "Options:\n",
    "  -q, --quiet                Suppress all output except errors\n",
    "  -v, --verbose              Enable verbose (debug-level) logging\n",
    "      --dir <DIR>            Use this cache directory instead of the one resolved from the ",
    "environment\n",
    "      --max-size <MAX_SIZE>  Override the cache size budget in bytes\n",
    "  -h, --help                 Print help\n",
    "  -V, --version              Print version\n"]

/-- How a run of the tool ended. -/
inductive Ending where
  /-- The command line asks for nothing the tool knows. -/
  | misused (error : UsageError)
  /-- It was carried out. -/
  | done (report : Report)

/-- Runs the tool. -/
def run {m : Type → Type} [Monad m] {φ : Type} (desk : Desk m φ) (env : Environment)
    (words : List Bytes) : m Ending :=
  match read words with
  | .error error => return .misused error
  | .ok .version => return .done (.ofLine versionLine)
  | .ok .help => return .done (.ofText helpText)
  | .ok (.run globals command) => return .done (← runCommand desk globals env command)

end BlobCache.Cli

namespace BlobCache.Machine

/-- The local machine as a place to run the tool. -/
def desk : Cli.Desk (StateM Machine) HandleId where
  host := host
  contentOf path := askFiles (·.read path)
  truncateFile path := onFiles fun fs =>
    match fs.truncate path with
    | .ok (_, fs) => (.ok (), fs)
    | .error cause => (.error cause, fs)
  appendFile path data := onFiles fun fs =>
    match fs.append path data with
    | .ok fs => (.ok (), fs)
    | .error cause => (.error cause, fs)

end BlobCache.Machine
