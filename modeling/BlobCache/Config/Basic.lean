import BlobCache.Config.Environment
import BlobCache.Event
import BlobCache.Text.Blank

/-!
# Configuration

Where the cache lives and how large it may grow. Both are taken from the environment.

* **Directory.** `ZE_INTEL_NPU_CACHE_DIR` names it outright, and set to nothing turns the cache off.
  Otherwise it is a directory below `XDG_CACHE_HOME`, `HOME` or the working directory, the first
  that is there; a base that is set to nothing counts as unset.
* **Budget.** `ZE_INTEL_NPU_CACHE_SIZE` holds a number of bytes, with white space around it if
  wanted. Anything else means the default, and is reported.
-/

namespace BlobCache

/-! ## Names and defaults -/

/-- The variable that names the cache directory. -/
def directoryVariable : String := "ZE_INTEL_NPU_CACHE_DIR"

/-- The variable that holds the budget. -/
def budgetVariable : String := "ZE_INTEL_NPU_CACHE_SIZE"

/-- The variable that names the base of the user's caches. -/
def cacheHomeVariable : String := "XDG_CACHE_HOME"

/-- The variable that names the user's home. -/
def homeVariable : String := "HOME"

/-- The directory below the base of the user's caches. -/
def cacheName : Path := Path.ofText "ze_intel_npu_cache"

/-- The directory below the user's home or the working directory. -/
def hiddenCacheName : Path := Path.ofText ".cache/ze_intel_npu_cache"

/-- The budget where none is given: four gibibytes. -/
def defaultBudget : UInt64 := 4294967296

/-! ## Configurations -/

/-- A configuration of the cache. -/
structure Config where
  /-- The directory of the entries; without one there is no cache. -/
  directory : Option Path
  /-- The most bytes that all entries together should take, checksums included. -/
  budget : UInt64
  deriving DecidableEq

namespace Config

/-- The configuration without a cache. -/
def disabled : Config := ⟨none, defaultBudget⟩

/-- The directory, unless it is missing or empty. -/
def usableDirectory (config : Config) : Option Path :=
  config.directory.filter fun path => !path.isEmpty

/-- Whether there is to be a cache. -/
def isEnabled (config : Config) : Bool := config.usableDirectory.isSome

end Config

/-! ## Resolution -/

namespace Environment

/-- The cache directory that the environment asks for. -/
def directory (env : Environment) : Except ConfigError (Option Path) :=
  match env.get? directoryVariable with
  | some path => .ok (if path.isEmpty then none else some path)
  | none =>
    match env.nonempty? cacheHomeVariable, env.nonempty? homeVariable with
    | some base, _ => .ok (some (Path.join base cacheName))
    | none, some home => .ok (some (Path.join home hiddenCacheName))
    | none, none =>
      match env.workingDirectory with
      | .ok here => .ok (some (Path.join here hiddenCacheName))
      | .error cause => .error (.noDirectory cause)

/-- The number of bytes that a value of the budget variable spells. -/
def budgetOf? (value : Bytes) : Option UInt64 := do
  let text ← Utf8.decode? value
  let n ← Numeral.unsigned? 10 Numeral.limit64 (Blank.trim text.toList)
  return UInt64.ofNat n

/-- The budget that the environment asks for. -/
def budget (env : Environment) : UInt64 :=
  ((env.get? budgetVariable).bind budgetOf?).getD defaultBudget

/-- What is reported when the budget is read: the value, if it spells no number of bytes. -/
def budgetEvents (env : Environment) : List Event :=
  match env.get? budgetVariable with
  | none => []
  | some value => if (budgetOf? value).isSome then [] else [.budgetUnreadable value]

end Environment

namespace Config

/-- The configuration that the environment asks for. -/
def ofEnvironment (env : Environment) : Except ConfigError Config :=
  env.directory.map fun directory => ⟨directory, env.budget⟩

/-- What is reported on the way: nothing, if there is no place for the cache. -/
def eventsOfEnvironment (env : Environment) : List Event :=
  match env.directory with
  | .ok _ => env.budgetEvents
  | .error _ => []

end Config

end BlobCache
